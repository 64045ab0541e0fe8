import BJvm.Linkage.FunctionTables
import Mathlib.Logic.Relation
import Mathlib.Data.List.Nodup
import Mathlib.Tactic.Common

/-!
# Selection through the vtable

The vtable of a class is that of its superclass, slot by slot with the class's own method where
`method_overrides` lets it replace the one there, and then the class's other methods
(`vtable_step`).  Selection as the virtual machine defines it goes up the superclasses too, but asks
whether a method can override the resolved one.  The two agree where both tests do
(`vtable_selects_iff`).
-/

namespace BJvm.Linkage

open Relation

variable {classes : Nat → Classdesc} {linked : List Nat} {t t' : Tables} {a b c d : Nat}
  {m s x y : MethodPtr}

/-! ### Selection -/

section

variable (classes : Nat → Classdesc)

/-- `b` is the direct superclass of `c`. -/
def SuperOf (c b : Nat) : Prop := (classes c).superClass = some b

def Declared (m : MethodPtr) : Prop := m.myIndex < (classes m.myClass).methods.length

/-- The method is an instance method, and no instance initialization method. -/
def IsInstance (m : MethodPtr) : Prop :=
  (methodAt classes m).isCtor = false ∧ (methodAt classes m).isClinit = false ∧
    (methodAt classes m).accessFlags.isStatic = false

def SameSignature (m m' : MethodPtr) : Prop :=
  (methodAt classes m).name = (methodAt classes m').name ∧
    (methodAt classes m).unparsedDescriptor = (methodAt classes m').unparsedDescriptor

/-- The run-time package: its name, and the loader that defines it. -/
def InSamePackage (c d : Nat) : Prop :=
  packageName (classes c).name = packageName (classes d).name ∧
    (classes c).classloader = (classes d).classloader

/-- `x` can override `m`: it is no private method, and `m` is public, protected, or accessible
within its package, which is that of `x`, or from which overriding leads to `x` through a class in
between. -/
inductive CanOverride : MethodPtr → MethodPtr → Prop
  | accessible {x m : MethodPtr} : Declared classes x → IsInstance classes x →
      (methodAt classes x).accessFlags.isPrivate = false → SameSignature classes x m →
      TransGen (SuperOf classes) x.myClass m.myClass →
      (methodAt classes m).accessFlags.isPublic = true ∨
        (methodAt classes m).accessFlags.isProtected = true → CanOverride x m
  | package {x m : MethodPtr} : Declared classes x → IsInstance classes x →
      (methodAt classes x).accessFlags.isPrivate = false → SameSignature classes x m →
      TransGen (SuperOf classes) x.myClass m.myClass →
      (methodAt classes m).accessFlags.isPrivate = false →
      InSamePackage classes x.myClass m.myClass → CanOverride x m
  | through {x y m : MethodPtr} : CanOverride x y → CanOverride y m → CanOverride x m

/-- The nearest class from `c` on upwards that declares a method which is `m` or can override it. -/
inductive SelectedFrom (m : MethodPtr) : Nat → MethodPtr → Prop
  | here {c : Nat} {x : MethodPtr} : x.myClass = c → x = m ∨ CanOverride classes x m →
      SelectedFrom m c x
  | up {c b : Nat} {s : MethodPtr} :
      (∀ x : MethodPtr, x.myClass = c → ¬ (x = m ∨ CanOverride classes x m)) →
      SuperOf classes c b → SelectedFrom m b s → SelectedFrom m c s

/-- The method selected on class `c` for the resolved method `m`. -/
def Selected (m : MethodPtr) (c : Nat) (s : MethodPtr) : Prop :=
  if (methodAt classes m).accessFlags.isPrivate then s = m else SelectedFrom classes m c s

/-- What the class file format asks of the methods of a class: no two have the same name and
descriptor, and a signature polymorphic method shares its name with no method it inherits. -/
structure WellFormedMethods : Prop where
  distinct : ∀ {x y : MethodPtr}, Declared classes x → Declared classes y →
    x.myClass = y.myClass → SameSignature classes x y → x = y
  polymorphic : ∀ {x y : MethodPtr}, Declared classes x → Declared classes y →
    (methodAt classes x).isSignaturePolymorphic = true →
    ReflTransGen (SuperOf classes) x.myClass y.myClass →
    (methodAt classes y).name = (methodAt classes x).name → y = x

/-- A method that a method reference can resolve to for a receiver of class `c`. -/
structure Resolvable (m : MethodPtr) (c : Nat) : Prop where
  declared : Declared classes m
  isInstance : IsInstance classes m
  inherited : ReflTransGen (SuperOf classes) c m.myClass

end

/-! ### Looking up a method in a class -/

theorem lookupOwn_some {name descriptor : List Char}
    (h : lookupOwn classes c name descriptor = some x) :
    x.myClass = c ∧ Declared classes x ∧
      methodCandidateMatches (methodAt classes x) name descriptor = true := by
  obtain ⟨i, hi, rfl⟩ := Option.map_eq_some_iff.mp h
  obtain ⟨hlt, hmatch, -⟩ := List.findIdx?_eq_some_iff_getElem.mp hi
  refine ⟨rfl, hlt, ?_⟩
  simpa only [methodAt, List.getD, List.getElem?_eq_getElem hlt, Option.getD_some] using hmatch

theorem lookupOwn_isSome (name descriptor : List Char) (hx : x.myClass = c)
    (hd : Declared classes x)
    (hm : methodCandidateMatches (methodAt classes x) name descriptor = true) :
    ∃ y, lookupOwn classes c name descriptor = some y := by
  subst hx
  rw [← Option.isSome_iff_exists, lookupOwn, Option.isSome_map, List.findIdx?_isSome,
    List.any_eq_true]
  refine ⟨methodAt classes x, ?_, hm⟩
  rw [methodAt, List.getD, List.getElem?_eq_getElem hd, Option.getD_some]
  exact List.getElem_mem hd

/-- What the class declares with the signature of a method it inherits. -/
theorem lookupOwn_iff (hw : WellFormedMethods classes) (hs : Declared classes s)
    (hcs : ReflTransGen (SuperOf classes) c s.myClass) :
    lookupOwn classes c (methodAt classes s).name (methodAt classes s).unparsedDescriptor = some x ↔
      x.myClass = c ∧ Declared classes x ∧ SameSignature classes x s := by
  have hsame : ∀ y, lookupOwn classes c (methodAt classes s).name
      (methodAt classes s).unparsedDescriptor = some y →
      y.myClass = c ∧ Declared classes y ∧ SameSignature classes y s := fun y hy => by
    obtain ⟨h1, h2, h3⟩ := lookupOwn_some hy
    simp only [methodCandidateMatches, Bool.and_eq_true, Bool.or_eq_true, decide_eq_true_eq] at h3
    refine ⟨h1, h2, h3.1, ?_⟩
    rcases h3.2 with hp | hd
    · rw [hw.polymorphic h2 hs hp (h1 ▸ hcs) h3.1.symm]
    · exact hd
  refine ⟨hsame x, fun ⟨h1, h2, h3⟩ => ?_⟩
  obtain ⟨y, hy⟩ := lookupOwn_isSome (methodAt classes s).name
    (methodAt classes s).unparsedDescriptor h1 h2
    (by simp [methodCandidateMatches, h3.1, h3.2])
  obtain ⟨g1, g2, g3⟩ := hsame y hy
  rw [hy, hw.distinct g2 h2 (g1.trans h1.symm) ⟨g3.1.trans h3.1.symm, g3.2.trans h3.2.symm⟩]

/-! ### The vtable of a class -/

section

variable (classes)

/-- What the class puts in a slot of its superclass's vtable. -/
def slotOf (c : Nat) (s : MethodPtr) : MethodPtr :=
  match lookupOwn classes c (methodAt classes s).name (methodAt classes s).unparsedDescriptor with
  | some x => if methodOverrides classes x s then x else s
  | none => s

end

theorem slotOf_cases (classes : Nat → Classdesc) (c : Nat) (s : MethodPtr) : slotOf classes c s = s ∨
    ∃ x, lookupOwn classes c (methodAt classes s).name (methodAt classes s).unparsedDescriptor =
      some x ∧ methodOverrides classes x s = true ∧ slotOf classes c s = x := by
  rw [slotOf]
  split
  · rename_i x hx
    split_ifs with h
    · exact .inr ⟨x, hx, h, rfl⟩
    · exact .inl rfl
  · exact .inl rfl

/-- What `copyVtable` leaves for a method: it was put in a slot, and has that slot's index, or it
has what it had. -/
structure CopiedMethod (classes : Nat → Classdesc) (c : Nat) (slots : List MethodPtr)
    (t t' : Tables) (x : MethodPtr) : Prop where
  replaced : x.myClass = c → (∃ s ∈ slots, slotOf classes c s = x) →
    t'.overrides x = true ∧
      ∃ s ∈ slots, slotOf classes c s = x ∧ t'.vtableIndex x = t.vtableIndex s
  kept : ¬ (x.myClass = c ∧ ∃ s ∈ slots, slotOf classes c s = x) →
    t'.overrides x = t.overrides x ∧ t'.vtableIndex x = t.vtableIndex x

theorem copyVtable_cons (hs : s.myClass ≠ c) (slots : List MethodPtr) (t : Tables) :
    copyVtable classes c (s :: slots) t = copyVtable classes c slots
      ((if slotOf classes c s = s then t
        else { t with
          vtableIndex := Function.update t.vtableIndex (slotOf classes c s) (t.vtableIndex s)
          overrides := Function.update t.overrides (slotOf classes c s) true }).pushVtable c
        (slotOf classes c s)) := by
  rw [copyVtable, List.foldl_cons, ← copyVtable]
  congr 1
  cases hx : lookupOwn classes c (methodAt classes s).name (methodAt classes s).unparsedDescriptor with
  | none => simp [slotOf, hx]
  | some x =>
    have hne : x ≠ s := fun heq => hs (heq ▸ (lookupOwn_some hx).1)
    by_cases h : methodOverrides classes x s = true <;> simp [slotOf, hx, h, hne]

theorem copyVtable_spec : ∀ {slots : List MethodPtr} (t : Tables),
    (∀ s ∈ slots, s.myClass ≠ c) →
    (copyVtable classes c slots t).vtable =
        Function.update t.vtable c (t.vtable c ++ slots.map (slotOf classes c)) ∧
      (copyVtable classes c slots t).itables = t.itables ∧
      ∀ x, CopiedMethod classes c slots t (copyVtable classes c slots t) x
  | [], t, _ => by
    refine ⟨by simp [copyVtable], rfl, fun x => ⟨?_, fun _ => ⟨rfl, rfl⟩⟩⟩
    rintro - ⟨s, hs, -⟩
    simp at hs
  | s :: slots, t, h => by
    have hs : s.myClass ≠ c := h s (by simp)
    have hslots : ∀ s' ∈ slots, s'.myClass ≠ c := fun s' hs' => h s' (by simp [hs'])
    rw [copyVtable_cons hs]
    set t₁ := (if slotOf classes c s = s then t else { t with
      vtableIndex := Function.update t.vtableIndex (slotOf classes c s) (t.vtableIndex s)
      overrides := Function.update t.overrides (slotOf classes c s) true }).pushVtable c
        (slotOf classes c s) with ht₁
    obtain ⟨h1, h2, h3⟩ := copyVtable_spec t₁ hslots
    have hvt : t₁.vtable = Function.update t.vtable c (t.vtable c ++ [slotOf classes c s]) := by
      rw [ht₁]
      split_ifs <;> rfl
    have hit : t₁.itables = t.itables := by
      rw [ht₁]
      split_ifs <;> rfl
    -- the state of a method behind the first slot
    have hself : slotOf classes c s ≠ s → t₁.overrides (slotOf classes c s) = true ∧
        t₁.vtableIndex (slotOf classes c s) = t.vtableIndex s := fun hne => by
      rw [ht₁, if_neg hne]
      exact ⟨Function.update_self .., Function.update_self ..⟩
    have hother : ∀ x, x ≠ slotOf classes c s ∨ slotOf classes c s = s →
        t₁.overrides x = t.overrides x ∧ t₁.vtableIndex x = t.vtableIndex x := fun x hx => by
      rw [ht₁]
      split_ifs with heq
      · exact ⟨rfl, rfl⟩
      · have hne : x ≠ slotOf classes c s := hx.resolve_right heq
        exact ⟨Function.update_of_ne hne .., Function.update_of_ne hne ..⟩
    refine ⟨?_, h2.trans hit, fun x => ⟨fun hx hex => ?_, fun hx => ?_⟩⟩
    · rw [h1, hvt, Function.update_self, Function.update_idem, List.map_cons, List.append_assoc,
        List.singleton_append]
    · by_cases hlater : ∃ s' ∈ slots, slotOf classes c s' = x
      · obtain ⟨g1, s', hs', g2, g3⟩ := (h3 x).replaced hx hlater
        refine ⟨g1, s', by simp [hs'], g2, ?_⟩
        rw [g3, (hother s' ?_).2]
        by_cases heq : slotOf classes c s = s
        · exact .inr heq
        · -- the slot of the first method has a method of the class
          refine .inl fun heq' => hslots s' hs' ?_
          rcases slotOf_cases classes c s with hc | ⟨y, hy, -, hc⟩
          · exact absurd hc heq
          · rw [heq', hc, (lookupOwn_some hy).1]
      · obtain ⟨s', hs', hslot⟩ := hex
        rcases List.mem_cons.mp hs' with rfl | hs'
        · have hne : slotOf classes c s' ≠ s' := fun heq => hs (by rw [← heq, hslot, hx])
          obtain ⟨g1, g2⟩ := (h3 x).kept fun hk => hlater hk.2
          obtain ⟨k1, k2⟩ := hself hne
          rw [hslot] at k1 k2
          exact ⟨g1.trans k1, s', by simp, hslot, g2.trans k2⟩
        · exact absurd ⟨s', hs', hslot⟩ hlater
    · obtain ⟨g1, g2⟩ := (h3 x).kept fun hk => hx ⟨hk.1, hk.2.imp fun s' hs' => ⟨by simp [hs'.1], hs'.2⟩⟩
      obtain ⟨k1, k2⟩ := hother x (by
        by_cases heq : slotOf classes c s = s
        · exact .inr heq
        · refine .inl fun hxs => hx ⟨?_, s, by simp, hxs.symm⟩
          rcases slotOf_cases classes c s with hc | ⟨y, hy, -, hc⟩
          · exact absurd hc heq
          · rw [hxs, hc, (lookupOwn_some hy).1])
      exact ⟨g1.trans k1, g2.trans k2⟩

/-- The methods that get a slot of their own. -/
def newMethods (classes : Nat → Classdesc) (t : Tables) (l : List MethodPtr) : List MethodPtr :=
  l.filter (vtableInclude classes t)

/-- The last loop of `set_up_function_tables`, over methods `l`. -/
def pushMethods (classes : Nat → Classdesc) (c : Nat) (l : List MethodPtr) (t : Tables) : Tables :=
  l.foldl (fun t method =>
    if vtableInclude classes t method then
      { t with vtableIndex := Function.update t.vtableIndex method (t.vtable c).length }.pushVtable c
        method
    else t) t

theorem pushMethods_spec (classes : Nat → Classdesc) (c : Nat) :
    ∀ {l : List MethodPtr} (t : Tables), l.Nodup →
    (pushMethods classes c l t).vtable =
        Function.update t.vtable c (t.vtable c ++ newMethods classes t l) ∧
      (pushMethods classes c l t).overrides = t.overrides ∧
      (∀ m ∈ newMethods classes t l, ((pushMethods classes c l t).vtable c)[
        (pushMethods classes c l t).vtableIndex m]? = some m) ∧
      ∀ m, m ∉ newMethods classes t l →
        (pushMethods classes c l t).vtableIndex m = t.vtableIndex m
  | [], t, _ => by simp [pushMethods, newMethods]
  | m :: l, t, hnd => by
    obtain ⟨hm, hnd⟩ := List.nodup_cons.mp hnd
    rw [pushMethods, List.foldl_cons, ← pushMethods, newMethods, List.filter_cons]
    by_cases hinc : vtableInclude classes t m = true
    · rw [if_pos hinc, if_pos hinc, ← newMethods]
      set t₁ : Tables := Tables.pushVtable
        { t with vtableIndex := Function.update t.vtableIndex m (t.vtable c).length } c m with ht₁
      obtain ⟨h1, h2, h3, h4⟩ := pushMethods_spec classes c (l := l) t₁ hnd
      have hvt : t₁.vtable = Function.update t.vtable c (t.vtable c ++ [m]) := rfl
      have hnew : newMethods classes t₁ l = newMethods classes t l := rfl
      have hvt' : (pushMethods classes c l t₁).vtable =
          Function.update t.vtable c (t.vtable c ++ m :: newMethods classes t l) := by
        rw [h1, hvt, Function.update_self, Function.update_idem, hnew, List.append_assoc,
          List.singleton_append]
      have hmnew : m ∉ newMethods classes t l := fun h => hm (List.mem_filter.mp h).1
      rw [hnew] at h3 h4
      refine ⟨hvt', h2, fun m' hm' => ?_, fun m' hm' => ?_⟩
      · rcases List.mem_cons.mp hm' with rfl | hm'
        · rw [h4 m' hmnew, hvt', Function.update_self]
          simp [ht₁, Tables.pushVtable]
        · exact h3 m' hm'
      · rw [List.mem_cons, not_or] at hm'
        rw [h4 m' hm'.2]
        exact Function.update_of_ne hm'.1 ..
    · rw [if_neg hinc, if_neg hinc]
      exact pushMethods_spec classes c t hnd

theorem mem_methodsOf : m ∈ methodsOf classes c ↔ m.myClass = c ∧ Declared classes m := by
  simp only [methodsOf, List.mem_map, List.mem_range, Declared]
  constructor
  · rintro ⟨i, hi, rfl⟩
    exact ⟨rfl, hi⟩
  · rintro ⟨rfl, h⟩
    exact ⟨_, h, rfl⟩

theorem methodsOf_nodup : (methodsOf classes c).Nodup :=
  List.Nodup.map (fun i j h => by simpa using h) List.nodup_range

/-! ### Linking -/

/-- What the vtables of the linked classes hold. -/
structure VtableInv (classes : Nat → Classdesc) (linked : List Nat) (t : Tables) : Prop where
  empty : ∀ c, c ∉ linked → t.vtable c = []
  fresh : ∀ m : MethodPtr, m.myClass ∉ linked → t.overrides m = false
  super : ∀ c ∈ linked, ∀ a, TransGen (SuperOf classes) c a → a ∈ linked ∧ a ≠ c
  entry : ∀ c ∈ linked, ∀ m ∈ t.vtable c, Declared classes m ∧
    ReflTransGen (SuperOf classes) c m.myClass ∧ (t.vtable c)[t.vtableIndex m]? = some m
  own : ∀ c ∈ linked, ∀ m : MethodPtr, m.myClass = c → Declared classes m → IsInstance classes m →
    m ∈ t.vtable c
  slots : ∀ c ∈ linked, ∀ b, SuperOf classes c b →
    (t.vtable b).map (slotOf classes c) <+: t.vtable c

/-- The tables before the loop over the class's own methods. -/
def beforeNewMethods (classes : Nat → Classdesc) (c : Nat) (t : Tables) : Tables :=
  let t := setupSuperHierarchy classes c t
  let t := match (classes c).superClass with
    | some super => setupItables classes super c (copyVtable classes c (t.vtable super) t)
    | none => t
  if (classes c).accessFlags.isInterface then pushOwnItable classes c t else t

theorem linkClass_eq (c : Nat) (t : Tables) : linkClass classes t c =
    pushMethods classes c (methodsOf classes c) (beforeNewMethods classes c t) := rfl

/-- The superclass's slots as the class takes them over. -/
def inheritedSlots (classes : Nat → Classdesc) (t : Tables) (c : Nat) : List MethodPtr :=
  match (classes c).superClass with
  | some b => (t.vtable b).map (slotOf classes c)
  | none => []

theorem VtableInv.myClass_mem (hv : VtableInv classes linked t) (hb : b ∈ linked)
    (hm : m ∈ t.vtable b) : m.myClass ∈ linked := by
  obtain ⟨-, hreach, -⟩ := hv.entry b hb m hm
  rcases reflTransGen_iff_eq_or_transGen.mp hreach with heq | hreach
  · rwa [heq]
  · exact (hv.super b hb _ hreach).1

theorem beforeNewMethods_spec (hv : VtableInv classes linked t) (hc : c ∉ linked)
    (hsuper : ∀ b, SuperOf classes c b → b ∈ linked) :
    (beforeNewMethods classes c t).vtable =
        Function.update t.vtable c (inheritedSlots classes t c) ∧
      ∀ x, CopiedMethod classes c ((classes c).superClass.elim [] t.vtable) t
        (beforeNewMethods classes c t) x := by
  have hown : ∀ t : Tables, (if (classes c).accessFlags.isInterface then pushOwnItable classes c t
      else t).vtable = t.vtable ∧ (if (classes c).accessFlags.isInterface then
      pushOwnItable classes c t else t).vtableIndex = t.vtableIndex ∧
      (if (classes c).accessFlags.isInterface then pushOwnItable classes c t else t).overrides =
        t.overrides := fun t => by
    split_ifs <;> exact ⟨rfl, rfl, rfl⟩
  rw [beforeNewMethods, inheritedSlots]
  cases hb : (classes c).superClass with
  | none =>
    obtain ⟨h1, h2, h3⟩ := hown (setupSuperHierarchy classes c t)
    refine ⟨?_, fun x => ⟨fun _ hex => by simp at hex, fun _ => ?_⟩⟩
    · rw [h1, ← hv.empty c hc, Function.update_eq_self]
      rfl
    · rw [h2, h3]
      exact ⟨rfl, rfl⟩
  | some b =>
    have hsame : (setupSuperHierarchy classes c t).vtable = t.vtable := rfl
    simp only [Option.elim_some, hsame]
    have hslots : ∀ s ∈ t.vtable b, s.myClass ≠ c := fun s hs heq =>
      hc (heq ▸ hv.myClass_mem (hsuper b hb) hs)
    obtain ⟨h1, -, h3⟩ := copyVtable_spec (setupSuperHierarchy classes c t) hslots
    obtain ⟨g1, g2, g3⟩ := hown (setupItables classes b c
      (copyVtable classes c (t.vtable b) (setupSuperHierarchy classes c t)))
    refine ⟨?_, fun x => ⟨fun hx hex => ?_, fun hx => ?_⟩⟩
    · refine g1.trans (h1.trans ?_)
      rw [hsame, hv.empty c hc, List.nil_append]
    · obtain ⟨k1, k2⟩ := (h3 x).replaced hx hex
      rw [g2, g3]
      exact ⟨k1, k2⟩
    · rw [g2, g3]
      exact (h3 x).kept hx

theorem inheritedSlots_eq (hb : SuperOf classes c b) :
    inheritedSlots classes t c = (t.vtable b).map (slotOf classes c) := by
  rw [SuperOf] at hb
  rw [inheritedSlots, hb]

theorem linkClass_inv (hv : VtableInv classes linked t)
    (hc : c ∉ linked) (hsuper : ∀ b, SuperOf classes c b → b ∈ linked) :
    VtableInv classes (c :: linked) (linkClass classes t c) := by
  obtain ⟨h1, h2⟩ := beforeNewMethods_spec hv hc hsuper
  rw [linkClass_eq]
  set t₁ := beforeNewMethods classes c t with ht₁
  obtain ⟨g1, g2, g3, g4⟩ := pushMethods_spec classes c t₁ methodsOf_nodup
  set t₂ := pushMethods classes c (methodsOf classes c) t₁ with ht₂
  have hvt : t₂.vtable = Function.update t.vtable c
      (inheritedSlots classes t c ++ newMethods classes t₁ (methodsOf classes c)) := by
    rw [g1, h1, Function.update_self, Function.update_idem]
  have hself : t₂.vtable c =
      inheritedSlots classes t c ++ newMethods classes t₁ (methodsOf classes c) := by
    rw [hvt, Function.update_self]
  have hother : ∀ d, d ≠ c → t₂.vtable d = t.vtable d := fun d hd => by
    rw [hvt, Function.update_of_ne hd]
  -- nothing changes for the methods of other classes
  have hkeep : ∀ m : MethodPtr, m.myClass ≠ c →
      t₂.overrides m = t.overrides m ∧ t₂.vtableIndex m = t.vtableIndex m := fun m hm => by
    have hnew : m ∉ newMethods classes t₁ (methodsOf classes c) := fun h =>
      hm (mem_methodsOf.mp (List.mem_filter.mp h).1).1
    obtain ⟨k1, k2⟩ := (h2 m).kept fun hk => hm hk.1
    rw [g2, g4 m hnew]
    exact ⟨k1, k2⟩
  have hold : ∀ d ∈ linked, d ≠ c := fun d hd heq => hc (heq ▸ hd)
  have hacyclic : ∀ a, TransGen (SuperOf classes) c a → a ∈ linked := fun a ha => by
    obtain ⟨b, hb, hba⟩ := TransGen.head'_iff.mp ha
    rcases reflTransGen_iff_eq_or_transGen.mp hba with rfl | hba
    · exact hsuper a hb
    · exact (hv.super b (hsuper b hb) a hba).1
  -- a method of the superclass's vtable leads to what the class has in its place
  have hslot : ∀ b, SuperOf classes c b → ∀ s ∈ t.vtable b,
      (t₂.vtable c)[t.vtableIndex s]? = some (slotOf classes c s) := fun b hb s hs => by
    have hidx := (hv.entry b (hsuper b hb) s hs).2.2
    obtain ⟨hlt, -⟩ := List.getElem?_eq_some_iff.mp hidx
    rw [hself, inheritedSlots_eq hb, List.getElem?_append_left (by simpa using hlt),
      List.getElem?_map, hidx, Option.map_some]
  have helim : ∀ b, SuperOf classes c b → (classes c).superClass.elim [] t.vtable = t.vtable b :=
    fun b hb => by
      rw [SuperOf] at hb
      rw [hb, Option.elim_some]
  refine ⟨fun d hd => ?_, fun m hm => ?_, fun d hd a ha => ?_, fun d hd m hm => ?_,
    fun d hd m hm hdecl hinst => ?_, fun d hd b hb => ?_⟩
  · rw [List.mem_cons, not_or] at hd
    rw [hother d hd.1, hv.empty d hd.2]
  · rw [List.mem_cons, not_or] at hm
    rw [(hkeep m hm.1).1, hv.fresh m hm.2]
  · rcases List.mem_cons.mp hd with rfl | hd
    · exact ⟨List.mem_cons_of_mem _ (hacyclic a ha), hold a (hacyclic a ha)⟩
    · obtain ⟨k1, k2⟩ := hv.super d hd a ha
      exact ⟨List.mem_cons_of_mem _ k1, k2⟩
  · rcases List.mem_cons.mp hd with rfl | hd
    · rw [hself, List.mem_append] at hm
      rcases hm with hm | hm
      · obtain ⟨b, hb⟩ := Option.isSome_iff_exists.mp (by
          by_contra hnone
          rw [Option.not_isSome_iff_eq_none] at hnone
          simp [inheritedSlots, hnone] at hm : (classes d).superClass.isSome)
        rw [inheritedSlots_eq hb, List.mem_map] at hm
        obtain ⟨s, hs, hsm⟩ := hm
        obtain ⟨k1, k2, -⟩ := hv.entry b (hsuper b hb) s hs
        rcases slotOf_cases classes d s with hkept | ⟨x, hx, -, hx'⟩
        · rw [hkept] at hsm
          subst hsm
          refine ⟨k1, .head hb k2, ?_⟩
          rw [(hkeep s (hold _ (hv.myClass_mem (hsuper b hb) hs))).2, hslot b hb s hs, hkept]
        · rw [hx'] at hsm
          subst hsm
          obtain ⟨l1, l2, -⟩ := lookupOwn_some hx
          obtain ⟨l3, s', hs', l4, l5⟩ := (h2 x).replaced l1 ⟨s, by rwa [helim b hb], hx'⟩
          rw [helim b hb] at hs'
          refine ⟨l2, l1 ▸ .refl, ?_⟩
          have hnew : x ∉ newMethods classes t₁ (methodsOf classes d) := fun h => by
            have := (List.mem_filter.mp h).2
            simp [vtableInclude, l3] at this
          rw [g4 x hnew, l5, hslot b hb s' hs', l4]
      · obtain ⟨k1, k2⟩ := mem_methodsOf.mp (List.mem_filter.mp hm).1
        exact ⟨k2, k1 ▸ .refl, g3 m hm⟩
    · rw [hother d (hold d hd)] at hm ⊢
      rw [(hkeep m (hold _ (hv.myClass_mem hd hm))).2]
      exact hv.entry d hd m hm
  · rcases List.mem_cons.mp hd with rfl | hd
    · rw [hself, List.mem_append]
      by_cases hex : ∃ s ∈ (classes d).superClass.elim [] t.vtable, slotOf classes d s = m
      · obtain ⟨s, hs, hsm⟩ := hex
        left
        rw [inheritedSlots]
        cases hb : (classes d).superClass with
        | none => simp [hb] at hs
        | some b =>
          rw [hb, Option.elim_some] at hs
          exact List.mem_map.mpr ⟨s, hs, hsm⟩
      · right
        have hover := ((h2 m).kept fun hk => hex hk.2).1
        rw [hv.fresh m (hm ▸ hc)] at hover
        refine List.mem_filter.mpr ⟨mem_methodsOf.mpr ⟨hm, hdecl⟩, ?_⟩
        simp [vtableInclude, hinst.1, hinst.2.1, hinst.2.2, hover]
    · rw [hother d (hold d hd)]
      exact hv.own d hd m hm hdecl hinst
  · rcases List.mem_cons.mp hd with rfl | hd
    · rw [hself, hother b (hold b (hsuper b hb)), inheritedSlots_eq hb]
      exact List.prefix_append _ _
    · have hbl := (hv.super d hd b (.single hb)).1
      rw [hother d (hold d hd), hother b (hold b hbl)]
      exact hv.slots d hd b hb

theorem vtableInv_of_linked (h : Linked classes linked t) : VtableInv classes linked t := by
  induction h with
  | nil => exact ⟨fun _ _ => rfl, fun _ _ => rfl, by simp, by simp, by simp, by simp⟩
  | link _ hcd hsuper _ ih => exact linkClass_inv ih hcd hsuper

theorem VtableInv.slot (hv : VtableInv classes linked t) (hc : c ∈ linked)
    (hb : SuperOf classes c b) {i : Nat} (hs : (t.vtable b)[i]? = some s) :
    (t.vtable c)[i]? = some (slotOf classes c s) := by
  obtain ⟨rest, hrest⟩ := hv.slots c hc b hb
  obtain ⟨hlt, -⟩ := List.getElem?_eq_some_iff.mp hs
  rw [← hrest, List.getElem?_append_left (by simpa using hlt), List.getElem?_map, hs,
    Option.map_some]

/-! ### Selection and the slots -/

/-- What overriding asks of the methods. -/
theorem CanOverride.spec (h : CanOverride classes x m) : Declared classes x ∧
    SameSignature classes x m ∧ TransGen (SuperOf classes) x.myClass m.myClass := by
  induction h with
  | accessible h1 _ _ h4 h5 _ => exact ⟨h1, h4, h5⟩
  | package h1 _ _ h4 h5 _ _ => exact ⟨h1, h4, h5⟩
  | through _ _ ih1 ih2 =>
    exact ⟨ih1.1, ⟨ih1.2.1.1.trans ih2.2.1.1, ih1.2.1.2.trans ih2.2.1.2⟩, ih1.2.2.trans ih2.2.2⟩

theorem SelectedFrom.spec (h : SelectedFrom classes m c s) :
    ReflTransGen (SuperOf classes) c s.myClass ∧ SameSignature classes s m := by
  induction h with
  | here hx hm =>
    refine ⟨hx ▸ .refl, ?_⟩
    rcases hm with rfl | hm
    · exact ⟨rfl, rfl⟩
    · exact hm.spec.2.1
  | up _ hb _ ih => exact ⟨.head hb ih.1, ih.2⟩

theorem SelectedFrom.unique (hw : WellFormedMethods classes) (hm : Declared classes m)
    (h : SelectedFrom classes m c s) : ∀ {s'}, SelectedFrom classes m c s' → s = s' := by
  induction h with
  | @here c x hx hxm =>
    intro s' h'
    cases h' with
    | here hs hsm =>
      rcases hxm with rfl | hxm <;> rcases hsm with rfl | hsm
      · rfl
      · exact (hw.distinct hsm.spec.1 hm (hs.trans hx.symm) hsm.spec.2.1).symm
      · exact hw.distinct hxm.spec.1 hm (hx.trans hs.symm) hxm.spec.2.1
      · obtain ⟨h1, h2, -⟩ := hxm.spec
        obtain ⟨g1, g2, -⟩ := hsm.spec
        exact hw.distinct h1 g1 (hx.trans hs.symm) ⟨h2.1.trans g2.1.symm, h2.2.trans g2.2.symm⟩
    | up hno _ _ => exact absurd hxm (hno x hx)
  | @up c b s hno hb _ ih =>
    intro s' h'
    cases h' with
    | here hs hsm => exact absurd hsm (hno s' hs)
    | up _ hb' h' =>
      rw [SuperOf, hb, Option.some.injEq] at hb'
      subst hb'
      exact ih h'

theorem Selected.unique (hw : WellFormedMethods classes) (hm : Declared classes m)
    {s' : MethodPtr} (h : Selected classes m c s) (h' : Selected classes m c s') : s = s' := by
  rw [Selected] at h h'
  split_ifs at h h'
  · rw [h, h']
  · exact h.unique hw hm h'

theorem Selected.sameSignature (h : Selected classes m c s) : SameSignature classes s m := by
  rw [Selected] at h
  split_ifs at h
  · rw [h]
    exact ⟨rfl, rfl⟩
  · exact h.spec.2

/-- Where the class's own method stands against the method that its superclass selects. -/
theorem slotOf_eq (hw : WellFormedMethods classes) (hs : Declared classes s)
    (hcs : ReflTransGen (SuperOf classes) c s.myClass) (hx : x.myClass = c)
    (hd : Declared classes x) (hsig : SameSignature classes x s) :
    slotOf classes c s = if methodOverrides classes x s then x else s := by
  rw [slotOf, (lookupOwn_iff hw hs hcs).mpr ⟨hx, hd, hsig⟩]

/-- Through the vtables of the linked classes every resolved method leads to the one selected, if
and only if, wherever a class declares a method with the name and descriptor of an inherited
one, `method_overrides` says of it and the method selected on the superclass what overriding says
of it and the inherited method. -/
theorem vtable_selects_iff (hw : WellFormedMethods classes) (h : Linked classes linked t) :
    (∀ c ∈ linked, ∀ m, Resolvable classes m c →
      ∃ s, Selected classes m c s ∧ vtableLookup t c (t.vtableIndex m) = some s) ↔
    ∀ c ∈ linked, ∀ b, SuperOf classes c b → ∀ m s x, Resolvable classes m b →
      Selected classes m b s → x.myClass = c → Declared classes x → SameSignature classes x m →
      (methodOverrides classes x s = true ↔
        (methodAt classes m).accessFlags.isPrivate = false ∧ CanOverride classes x m) := by
  have hv := vtableInv_of_linked h
  have hup : ∀ c ∈ linked, ∀ b, SuperOf classes c b → ∀ m : MethodPtr,
      ReflTransGen (SuperOf classes) b m.myClass → m.myClass ≠ c := fun c hc b hb m hm =>
    (hv.super c hc _ (.head' hb hm)).2
  constructor
  · intro hall c hc b hb m s x hm hs hx hd hsig
    have hbl := (hv.super c hc b (.single hb)).1
    obtain ⟨s', hs', hidx⟩ := hall b hbl m hm
    rw [hs'.unique hw hm.declared hs] at hidx
    obtain ⟨hds, hbs, -⟩ := hv.entry b hbl s (List.mem_of_getElem? hidx)
    have hslot := hv.slot hc hb hidx
    have hsig' := hs.sameSignature
    rw [slotOf_eq hw hds (.head hb hbs) hx hd
      ⟨hsig.1.trans hsig'.1.symm, hsig.2.trans hsig'.2.symm⟩] at hslot
    obtain ⟨s'', hs'', hidx''⟩ := hall c hc m ⟨hm.declared, hm.isInstance, .head hb hm.inherited⟩
    rw [vtableLookup, hslot, Option.some.injEq] at hidx''
    subst hidx''
    constructor
    · intro hov
      rw [hov, if_pos rfl, Selected] at hs''
      split_ifs at hs'' with hp
      · exact absurd (hs'' ▸ hx) (hup c hc b hb m hm.inherited)
      refine ⟨by simpa using hp, ?_⟩
      cases hs'' with
      | here _ hxm =>
        rcases hxm with rfl | hxm
        · exact absurd hx (hup c hc b hb x hm.inherited)
        · exact hxm
      | up _ hb' hsel =>
        exact absurd hx (hup c hc _ hb' x hsel.spec.1)
    · rintro ⟨hp, hcan⟩
      by_contra hov
      rw [Bool.not_eq_true] at hov
      have hsel : Selected classes m c x := by
        rw [Selected, hp, if_neg (by simp)]
        exact .here hx (.inr hcan)
      rw [hov, if_neg (by simp)] at hs''
      have heq := hs''.unique hw hm.declared hsel
      exact absurd (heq ▸ hx) (hup c hc b hb s hbs)
  · intro hagree c hc m hm
    obtain ⟨hdecl, hinst, hreach⟩ := hm
    revert hc
    refine ReflTransGen.head_induction_on hreach ?_ ?_
    · intro hc
      refine ⟨m, ?_, (hv.entry _ hc m (hv.own _ hc m rfl hdecl hinst)).2.2⟩
      rw [Selected]
      split_ifs
      · rfl
      · exact .here rfl (.inl rfl)
    · intro c b hb hbm ih hc
      have hbl := (hv.super c hc b (.single hb)).1
      obtain ⟨s, hs, hidx⟩ := ih hbl
      obtain ⟨hds, hbs, -⟩ := hv.entry b hbl s (List.mem_of_getElem? hidx)
      have hslot := hv.slot hc hb hidx
      have hsig := hs.sameSignature
      have hne : ∀ y : MethodPtr, y.myClass = c → y ≠ m := fun y hy heq =>
        hup c hc b hb m hbm (heq ▸ hy)
      refine ⟨_, ?_, hslot⟩
      -- the class selects as its superclass unless one of its methods can override
      have hkeep : (∀ y : MethodPtr, y.myClass = c → (methodAt classes m).accessFlags.isPrivate = false →
          ¬ CanOverride classes y m) → Selected classes m c s := fun hno => by
        rw [Selected] at hs ⊢
        split_ifs at hs ⊢ with hp
        · exact hs
        · refine .up (fun y hy => ?_) hb hs
          rintro (heq | hcan)
          · exact hne y hy heq
          · exact hno y hy (by simpa using hp) hcan
      by_cases hex : ∃ x : MethodPtr, x.myClass = c ∧ Declared classes x ∧ SameSignature classes x m
      · obtain ⟨x, hx, hd, hsigx⟩ := hex
        have hiff := hagree c hc b hb m s x ⟨hdecl, hinst, hbm⟩ hs hx hd hsigx
        rw [slotOf_eq hw hds (.head hb hbs) hx hd
          ⟨hsigx.1.trans hsig.1.symm, hsigx.2.trans hsig.2.symm⟩]
        split_ifs with hov
        · obtain ⟨hp, hcan⟩ := hiff.mp hov
          rw [Selected, hp, if_neg (by simp)]
          exact .here hx (.inr hcan)
        · refine hkeep fun y hy hp hcan => hov (hiff.mpr ⟨hp, ?_⟩)
          obtain ⟨h1, h2, -⟩ := hcan.spec
          rwa [← hw.distinct h1 hd (hy.trans hx.symm)
            ⟨h2.1.trans hsigx.1.symm, h2.2.trans hsigx.2.symm⟩]
      · have hnone : slotOf classes c s = s := by
          rcases slotOf_cases classes c s with heq | ⟨x, hx, -, -⟩
          · exact heq
          · obtain ⟨h1, h2, h3⟩ := (lookupOwn_iff hw hds (.head hb hbs)).mp hx
            exact absurd ⟨x, h1, h2, h3.1.trans hsig.1, h3.2.trans hsig.2⟩ hex
        rw [hnone]
        exact hkeep fun y hy _ hcan => hex ⟨y, hy, hcan.spec.1, hcan.spec.2.1⟩

/-! ### Two classes -/

/-- `java/lang/Object`, `p/A` with a method `f`, and `q/B extends p/A` with a public `f`. -/
def twoClasses (flags : AccessFlags) : Nat → Classdesc
  | 0 => { name := ['O'] }
  | 1 => { name := ['p', '/', 'A'], superClass := some 0,
           methods := [{ name := ['f'], unparsedDescriptor := ['(', ')', 'V'], accessFlags := flags }] }
  | 2 => { name := ['q', '/', 'B'], superClass := some 1,
           methods := [{ name := ['f'], unparsedDescriptor := ['(', ')', 'V'],
                         accessFlags := { isPublic := true } }] }
  | _ => default

/-- The tables of the two classes. -/
def twoClassesTables (flags : AccessFlags) : Tables :=
  [0, 1, 2].foldl (linkClass (twoClasses flags)) {}

theorem twoClasses_linked (flags : AccessFlags) :
    Linked (twoClasses flags) [2, 1, 0] (twoClassesTables flags) := by
  refine .link (.link (.link .nil ?_ ?_ ?_) ?_ ?_ ?_) ?_ ?_ ?_ <;> simp [twoClasses]

theorem twoClasses_declared {flags : AccessFlags} (h : Declared (twoClasses flags) m) :
    m = ⟨1, 0⟩ ∨ m = ⟨2, 0⟩ := by
  obtain ⟨c, i⟩ := m
  match c with
  | 0 => simp [Declared, twoClasses] at h
  | 1 => exact .inl (by simpa [Declared, twoClasses] using h)
  | 2 => exact .inr (by simpa [Declared, twoClasses] using h)
  | _ + 3 => exact absurd h (Nat.not_lt_zero _)

theorem twoClasses_wellFormed (flags : AccessFlags) : WellFormedMethods (twoClasses flags) := by
  constructor
  · intro x y hx hy hxy _
    rcases twoClasses_declared hx with rfl | rfl <;> rcases twoClasses_declared hy with rfl | rfl <;>
      simp_all
  · intro x y hx _ hp
    rcases twoClasses_declared hx with rfl | rfl <;> simp [methodAt, twoClasses] at hp

theorem twoClasses_overrides :
    ∀ c ∈ [2, 1, 0], ∀ b, SuperOf (twoClasses { isPublic := true }) c b → ∀ m s x,
      Resolvable (twoClasses { isPublic := true }) m b →
      Selected (twoClasses { isPublic := true }) m b s → x.myClass = c →
      Declared (twoClasses { isPublic := true }) x →
      SameSignature (twoClasses { isPublic := true }) x m →
      (methodOverrides (twoClasses { isPublic := true }) x s = true ↔
        (methodAt (twoClasses { isPublic := true }) m).accessFlags.isPrivate = false ∧
          CanOverride (twoClasses { isPublic := true }) x m) := by
  intro c hc b hb m s x hm _ hx hd hsig
  have hv := vtableInv_of_linked (twoClasses_linked { isPublic := true })
  have hne := (hv.super c hc _ (.head' hb hm.inherited)).2
  rcases twoClasses_declared hm.declared with rfl | rfl
  · rcases twoClasses_declared hd with rfl | rfl
    · exact absurd hx hne
    · exact ⟨fun _ => ⟨rfl, .accessible hd ⟨rfl, rfl, rfl⟩ rfl hsig (.single rfl) (.inl rfl)⟩,
        fun _ => rfl⟩
  · -- no class is below `B`
    have hb2 : TransGen (SuperOf (twoClasses { isPublic := true })) 2 b := by
      simp only [List.mem_cons, List.not_mem_nil, or_false] at hc
      rcases hc with rfl | rfl | rfl
      · exact .single hb
      · exact .head (show SuperOf _ 2 1 from rfl) (.single hb)
      · exact absurd hb (by simp [SuperOf, twoClasses])
    exact absurd rfl (hv.super 2 (by simp) 2 (hb2.trans_left hm.inherited)).2

theorem twoClasses_selected :
    ∃ s, Selected (twoClasses { isPublic := true }) ⟨1, 0⟩ 2 s ∧
      vtableLookup (twoClassesTables { isPublic := true }) 2
        ((twoClassesTables { isPublic := true }).vtableIndex ⟨1, 0⟩) = some s :=
  (vtable_selects_iff (twoClasses_wellFormed _) (twoClasses_linked _)).mpr twoClasses_overrides 2
    (by simp) ⟨1, 0⟩ ⟨Nat.zero_lt_one, ⟨rfl, rfl, rfl⟩, .single (show SuperOf _ 2 1 from rfl)⟩

/-- The method of `p/A` is package-private, and that of `q/B` in its slot, though it cannot
override it. -/
theorem twoClasses_wrong : Linked (twoClasses {}) [2, 1, 0] (twoClassesTables {}) ∧
    WellFormedMethods (twoClasses {}) ∧
    ¬ ∀ c ∈ [2, 1, 0], ∀ m, Resolvable (twoClasses {}) m c →
      ∃ s, Selected (twoClasses {}) m c s ∧
        vtableLookup (twoClassesTables {}) c ((twoClassesTables {}).vtableIndex m) = some s := by
  refine ⟨twoClasses_linked _, twoClasses_wellFormed _, fun hall => ?_⟩
  have hv := vtableInv_of_linked (twoClasses_linked {})
  obtain ⟨s, hs, hidx⟩ := hall 2 (by simp) ⟨1, 0⟩
    ⟨Nat.zero_lt_one, ⟨rfl, rfl, rfl⟩, .single (show SuperOf _ 2 1 from rfl)⟩
  have heq : vtableLookup (twoClassesTables {}) 2 ((twoClassesTables {}).vtableIndex ⟨1, 0⟩) =
      some ⟨2, 0⟩ := by decide
  rw [heq, Option.some.injEq] at hidx
  subst hidx
  have hno : ∀ x m, CanOverride (twoClasses {}) x m → m ≠ ⟨1, 0⟩ := by
    intro x m h
    induction h with
    | accessible _ _ _ _ _ hacc => rintro rfl; revert hacc; decide
    | package hd _ _ _ hbelow _ hpkg =>
      rintro rfl
      rcases twoClasses_declared hd with rfl | rfl
      · exact (hv.super 1 (by simp) 1 hbelow).2 rfl
      · exact absurd hpkg.1 (by decide)
    | through _ _ _ ih => exact ih
  rw [Selected, if_neg (by decide)] at hs
  cases hs with
  | here _ h =>
    rcases h with h | h
    · exact absurd h (by decide)
    · exact hno _ _ h rfl
  | up _ hb h =>
    have hreach := h.spec.1
    exact (hv.super 2 (by simp) 2 (.head' hb hreach)).2 rfl

end BJvm.Linkage
