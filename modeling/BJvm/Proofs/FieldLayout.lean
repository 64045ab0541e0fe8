import BJvm.Linkage.FieldLayout
import Mathlib.Data.List.Nodup
import Mathlib.Data.List.Perm.Basic
import Mathlib.Data.List.Range

/-!
# Offsets of the fields
-/

namespace BJvm.FieldLayout

open Linker (State)
open Packing (Extent Packed alignUp)

variable {t : Target}

/-! ### One field -/

theorem sizeofTypeKind_pos {k : TypeKind} {s : Nat} (h : sizeofTypeKind t k = some s) : 0 < s := by
  cases k <;> cases t <;> cases h <;> decide

theorem sizeofTypeKind_eq {k : TypeKind} {s : Nat} (h : sizeofTypeKind t k = some s) :
    s = 2 ^ 3 ∨ s = 2 ^ 2 ∨ s = 2 ^ 1 ∨ s = 2 ^ 0 := by
  cases k <;> cases t <;> cases h <;> simp [Target.sizeofPointer]

/-- A field goes to the next multiple of its size. -/
theorem allocateField_eq (current : Nat) (k : TypeKind) :
    allocateField t current k = (sizeofTypeKind t k).map fun s =>
      (alignUp current s, alignUp current s + s) := by
  cases k <;> cases t <;> simp [allocateField, sizeofTypeKind, Target.sizeofPointer]

/-! ### The order of the fields -/

theorem mapM_getElem {α β : Type} {f : α → Option β} : ∀ {l : List α} {l' : List β},
    l.mapM f = some l' → ∀ {j : Nat} {a : α}, l[j]? = some a → ∃ b, f a = some b ∧ l'[j]? = some b
  | [], l', _, j, a, hj => by simp at hj
  | c :: l, l', h, j, a, hj => by
    simp only [List.mapM_cons, bind, Option.bind_eq_some_iff, pure, Option.some.injEq] at h
    obtain ⟨b, hb, bs, hbs, rfl⟩ := h
    rcases j with _ | j
    · obtain rfl : c = a := by simpa using hj
      exact ⟨b, hb, rfl⟩
    · exact mapM_getElem hbs (by simpa using hj)

theorem mapM_isSome {α β : Type} {f : α → Option β} : ∀ {l : List α},
    (∀ a ∈ l, (f a).isSome) → ∃ l', l.mapM f = some l'
  | [], _ => ⟨[], rfl⟩
  | a :: l, h => by
    obtain ⟨b, hb⟩ := Option.isSome_iff_exists.mp (h a List.mem_cons_self)
    obtain ⟨bs, hbs⟩ := mapM_isSome fun c hc => h c (List.mem_cons_of_mem a hc)
    exact ⟨b :: bs, by simp [List.mapM_cons, hb, hbs]⟩

/-- The fields at the positions given. -/
def fieldsAt (order : List Nat) (fields : List CpField) : List CpField :=
  order.filterMap fun i => fields[i]?

theorem filterMap_getElem? {α : Type} : ∀ l : List α,
    (List.range l.length).filterMap (fun i => l[i]?) = l
  | [] => rfl
  | a :: l => by
    simp [List.range_succ_eq_map, List.filterMap_map, filterMap_getElem? l]

theorem fieldsAt_range (fields : List CpField) :
    fieldsAt (List.range fields.length) fields = fields := filterMap_getElem? fields

theorem fieldsAt_append (order order' : List Nat) (fields : List CpField) :
    fieldsAt (order ++ order') fields = fieldsAt order fields ++ fieldsAt order' fields :=
  List.filterMap_append

theorem fieldsAt_filter {fields : List CpField} {p : Nat → Bool} {q : CpField → Bool}
    (h : ∀ i f, fields[i]? = some f → p i = q f) :
    fieldsAt ((List.range fields.length).filter p) fields = fields.filter q := by
  rw [fieldsAt, List.filterMap_filter]
  conv_rhs => rw [← filterMap_getElem? fields, List.filter_filterMap]
  congr 1
  funext i
  cases hi : fields[i]? with
  | none => simp
  | some f => simp [h i f hi, Option.filter]

/-- Every field is placed once. -/
theorem fieldOrder_perm {padding : Option Nat} {fields : List CpField} {order : List Nat}
    (h : fieldOrder t padding fields = some order) : order.Perm (List.range fields.length) := by
  rcases padding with _ | p
  · obtain ⟨sizes, hs, h⟩ := Option.bind_eq_some_iff.mp h
    cases h
    have hsize : ∀ i < fields.length, sizes[i]? = some (2 ^ 3) ∨ sizes[i]? = some (2 ^ 2) ∨
        sizes[i]? = some (2 ^ 1) ∨ sizes[i]? = some (2 ^ 0) := by
      intro i hi
      obtain ⟨s, hf, hs⟩ := mapM_getElem hs (List.getElem?_eq_getElem hi)
      simp only [hs, Option.some.injEq]
      exact sizeofTypeKind_eq hf
    refine (List.perm_ext_iff_of_nodup ?_ List.nodup_range).mpr fun i => ?_
    · simp only [List.nodup_append, List.mem_append, List.mem_filter, decide_eq_true_eq]
      refine ⟨⟨⟨?_, ?_, ?_⟩, ?_, ?_⟩, ?_, ?_⟩
      all_goals first
        | exact List.nodup_range.filter _
        | grind
    · simp only [List.mem_append, List.mem_filter, List.mem_range, decide_eq_true_eq]
      have := hsize i
      tauto
  · cases h
    exact .refl _

/-- The order of the positions is that of the fields. -/
theorem fieldsAt_fieldOrder {padding : Option Nat} {fields : List CpField} {order : List Nat}
    (h : fieldOrder t padding fields = some order) :
    fieldsAt order fields = placementOrder t padding fields := by
  rcases padding with _ | p
  · obtain ⟨sizes, hs, h⟩ := Option.bind_eq_some_iff.mp h
    cases h
    have hbucket : ∀ b, fieldsAt ((List.range fields.length).filter
        fun j => decide (sizes[j]? = some (2 ^ b))) fields =
        fields.filter fun f => decide (f.size t = 2 ^ b) := by
      intro b
      refine fieldsAt_filter fun i f hi => ?_
      obtain ⟨s, hf, hi⟩ := mapM_getElem hs hi
      simp [hi, CpField.size, hf]
    simp only [fieldsAt_append, hbucket]
    simp [placementOrder]
  · cases h
    exact fieldsAt_range fields

/-! ### The loop that places the fields -/

namespace CpField

/-- The field without the offset that linking gives it. -/
def declaration (f : CpField) : CpField := { f with byteOffset := 0 }

@[simp] theorem isStatic_at (f : CpField) (n : Nat) :
    ({ f with byteOffset := n } : CpField).isStatic = f.isStatic := rfl
@[simp] theorem isReference_at (f : CpField) (n : Nat) :
    ({ f with byteOffset := n } : CpField).isReference = f.isReference := rfl
@[simp] theorem kind_at (f : CpField) (n : Nat) :
    ({ f with byteOffset := n } : CpField).kind = f.kind := rfl
@[simp] theorem declaration_at (f : CpField) (n : Nat) :
    ({ f with byteOffset := n } : CpField).declaration = f.declaration := rfl

end CpField

/-- Fields that have been placed in order, and the offset behind them. -/
structure PlacedFrom (t : Target) (start limit : Nat) (fields : List CpField) : Prop where
  extents : fields.map (CpField.extent t) = Packing.placeAll start (fields.map (CpField.size t))
  limit : limit = Packing.endOf start (fields.map (CpField.size t))

/-- The fields at some positions have been placed, behind what had been placed before. -/
structure Allocated (t : Target) (order : List Nat) (o : Offsets) (fields : List CpField)
    (o' : Offsets) (fields' : List CpField) : Prop where
  others : ∀ i ∉ order, fields'[i]? = fields[i]?
  declarations : fields'.map CpField.declaration = fields.map CpField.declaration
  kinds : ∀ f ∈ fieldsAt order fields', (sizeofTypeKind t f.kind).isSome
  static : PlacedFrom t o.staticOffset o'.staticOffset
    ((fieldsAt order fields').filter (·.isStatic))
  nonstatic : PlacedFrom t o.nonstaticOffset o'.nonstaticOffset
    ((fieldsAt order fields').filter (!·.isStatic))
  staticRefs : o'.staticRefs = o.staticRefs +
    (((fieldsAt order fields').filter (·.isStatic)).filter (·.isReference)).length
  nonstaticRefs : o'.nonstaticRefs = o.nonstaticRefs +
    (((fieldsAt order fields').filter (!·.isStatic)).filter (·.isReference)).length

theorem PlacedFrom.cons {field : CpField} {start byteOffset current limit : Nat}
    {fields : List CpField} (hk : allocateField t start field.kind = some (byteOffset, current))
    (h : PlacedFrom t current limit fields) :
    PlacedFrom t start limit ({ field with byteOffset } :: fields) := by
  rw [allocateField_eq] at hk
  obtain ⟨s, hs, hk⟩ := Option.map_eq_some_iff.mp hk
  cases hk
  have hsize : ∀ n, CpField.size t { field with byteOffset := n } = s := fun n => by
    simp [CpField.size, hs]
  refine ⟨?_, ?_⟩
  · simp only [List.map_cons, CpField.extent, Packing.placeAll, hsize]
    rw [← h.extents]
  · rw [List.map_cons, Packing.endOf, hsize]
    exact h.limit

theorem allocated_nil (t : Target) (o : Offsets) (fields : List CpField) :
    Allocated t [] o fields o fields where
  others _ _ := rfl
  declarations := rfl
  kinds _ h := absurd h List.not_mem_nil
  static := ⟨rfl, rfl⟩
  nonstatic := ⟨rfl, rfl⟩
  staticRefs := rfl
  nonstaticRefs := rfl

theorem map_declaration_set {fields : List CpField} {i : Nat} {field : CpField} {n : Nat}
    (hi : fields[i]? = some field) :
    (fields.set i { field with byteOffset := n }).map CpField.declaration =
      fields.map CpField.declaration := by
  rw [List.map_set, CpField.declaration_at]
  refine List.ext_getElem? fun j => ?_
  rw [List.getElem?_set]
  split_ifs with hj hl
  · subst hj
    simp [hi]
  · subst hj
    simp only [List.length_map, Nat.not_lt] at hl
    simp [List.getElem?_eq_none hl]
  · rfl

theorem allocated_cons {order : List Nat} {i : Nat} {o o₁ o' : Offsets}
    {fields fields' : List CpField} {field : CpField} {byteOffset current : Nat}
    (hi : i ∉ order) (hf : fields[i]? = some field)
    (hk : allocateField t (if field.isStatic then o.staticOffset else o.nonstaticOffset) field.kind =
      some (byteOffset, current))
    (h₁ : o₁ = if field.isStatic then
        { o with
          staticOffset := current
          staticRefs := if field.isReference then o.staticRefs + 1 else o.staticRefs }
      else
        { o with
          nonstaticOffset := current
          nonstaticRefs := if field.isReference then o.nonstaticRefs + 1 else o.nonstaticRefs })
    (h : Allocated t order o₁ (fields.set i { field with byteOffset }) o' fields') :
    Allocated t (i :: order) o fields o' fields' := by
  have hlt : i < fields.length := (List.getElem?_eq_some_iff.mp hf).1
  have hat : fields'[i]? = some { field with byteOffset } := by
    rw [h.others i hi, List.getElem?_set_self hlt]
  have hfields : fieldsAt (i :: order) fields' =
      { field with byteOffset } :: fieldsAt order fields' := by
    simp [fieldsAt, hat]
  refine ⟨?_, ?_, ?_, ?_, ?_, ?_, ?_⟩
  · intro j hj
    rw [h.others j (fun hm => hj (List.mem_cons_of_mem i hm)),
      List.getElem?_set_ne fun he => hj (List.mem_cons.mpr (Or.inl he.symm))]
  · rw [h.declarations, map_declaration_set hf]
  · intro f hm
    rw [hfields] at hm
    rcases List.mem_cons.mp hm with rfl | hm
    · rw [allocateField_eq] at hk
      obtain ⟨s, hs, -⟩ := Option.map_eq_some_iff.mp hk
      rw [CpField.kind_at, hs]
      rfl
    · exact h.kinds f hm
  all_goals
    rw [hfields, List.filter_cons]
    cases hs : field.isStatic <;> cases hr : field.isReference <;>
      simp only [hs, hr, CpField.isStatic_at, Bool.not_true, Bool.not_false, if_true, if_false,
        Bool.false_eq_true] at hk h₁ ⊢ <;> subst h₁
  all_goals first
    | exact .cons hk h.static
    | exact .cons hk h.nonstatic
    | exact h.static
    | exact h.nonstatic
    | simpa [List.filter_cons, hr] using h.staticRefs
    | simpa [List.filter_cons, hr] using h.nonstaticRefs
    | simpa [hr, Nat.add_assoc, Nat.add_comm 1] using h.staticRefs
    | simpa [hr, Nat.add_assoc, Nat.add_comm 1] using h.nonstaticRefs

/-- What the loop does. -/
theorem allocateFields_allocated : ∀ {order : List Nat} {o o' : Offsets}
    {fields fields' : List CpField}, order.Nodup →
    allocateFields t order o fields = some (o', fields') → Allocated t order o fields o' fields'
  | [], o, o', fields, fields', _, h => by
    cases h
    exact allocated_nil t o fields
  | i :: order, o, o', fields, fields', hnd, h => by
    obtain ⟨hi, hnd⟩ := List.nodup_cons.mp hnd
    unfold allocateFields at h
    rcases hf : fields[i]? with _ | field
    · simp [hf] at h
    · simp only [hf, Option.bind_eq_bind, Option.bind_some] at h
      rcases hs : field.isStatic with _ | _
      all_goals
        simp only [hs, Bool.false_eq_true, if_true, if_false] at h
        obtain ⟨⟨byteOffset, current⟩, hk, h⟩ := Option.bind_eq_some_iff.mp h
        exact allocated_cons hi hf (by simpa [hs] using hk) (by simp [hs])
          (allocateFields_allocated hnd h)

/-- The loop does not stop early where no field is `void`. -/
theorem allocateFields_isSome : ∀ {order : List Nat} {o : Offsets} {fields : List CpField},
    (∀ i ∈ order, i < fields.length) → (∀ f ∈ fields, (sizeofTypeKind t f.kind).isSome) →
    (allocateFields t order o fields).isSome
  | [], _, _, _, _ => rfl
  | i :: order, o, fields, hlt, hk => by
    have hi := hlt i List.mem_cons_self
    obtain ⟨s, hs⟩ := Option.isSome_iff_exists.mp (hk _ (List.getElem_mem hi))
    have hrest : ∀ (o₁ : Offsets) (byteOffset : Nat),
        (allocateFields t order o₁ (fields.set i { fields[i] with byteOffset })).isSome := by
      intro o₁ byteOffset
      refine allocateFields_isSome ?_ ?_
      · intro j hj
        rw [List.length_set]
        exact hlt j (List.mem_cons_of_mem i hj)
      · intro f hf
        rcases List.mem_or_eq_of_mem_set hf with hf | rfl
        · exact hk f hf
        · exact hk fields[i] (List.getElem_mem hi)
    unfold allocateFields
    simp only [List.getElem?_eq_getElem hi, Option.bind_eq_bind, Option.bind_some,
      allocateField_eq, hs, Option.map_some]
    split_ifs
    all_goals exact hrest _ _

/-! ### The layout of one class -/

/-- Fields, listed as declared, that have been placed in another order. -/
def Arranged (t : Target) (start limit : Nat) (declared fields : List CpField) : Prop :=
  ∃ placed : List CpField, placed.Perm fields ∧
    placed.map CpField.declaration = declared.map CpField.declaration ∧
    PlacedFrom t start limit placed

theorem Arranged.packed {start limit : Nat} {declared fields : List CpField}
    (hk : ∀ f ∈ fields, (sizeofTypeKind t f.kind).isSome)
    (h : Arranged t start limit declared fields) :
    Packed start limit (fields.map (CpField.extent t)) := by
  obtain ⟨placed, hperm, -, hplaced⟩ := h
  refine Packed.perm ?_ (hperm.map _)
  rw [hplaced.extents, hplaced.limit]
  refine Packing.packed_placeAll fun s hs => ?_
  obtain ⟨f, hf, rfl⟩ := List.mem_map.mp hs
  obtain ⟨s, hs⟩ := Option.isSome_iff_exists.mp (hk f (hperm.mem_iff.mp hf))
  rw [CpField.size, hs]
  exact sizeofTypeKind_pos hs

/-- What depends on the declarations only. -/
theorem map_declaration {α : Type} {g : CpField → α} {fields fields' : List CpField}
    (hg : ∀ f, g f.declaration = g f)
    (h : fields.map CpField.declaration = fields'.map CpField.declaration) :
    fields.map g = fields'.map g := by
  have hcomp : g ∘ CpField.declaration = g := funext hg
  have := congrArg (List.map g) h
  rwa [List.map_map, List.map_map, hcomp] at this

theorem Arranged.limit_eq {start limit : Nat} {declared fields : List CpField}
    (h : Arranged t start limit declared fields) :
    limit = Packing.endOf start (declared.map (CpField.size t)) := by
  obtain ⟨placed, -, hdecl, hplaced⟩ := h
  rw [hplaced.limit, map_declaration (fun _ => rfl) hdecl]

theorem filter_declaration {p : CpField → Bool} {fields fields' : List CpField}
    (hp : ∀ f, p f.declaration = p f)
    (h : fields.map CpField.declaration = fields'.map CpField.declaration) :
    (fields.filter p).map CpField.declaration = (fields'.filter p).map CpField.declaration := by
  have hcomp : p ∘ CpField.declaration = p := funext hp
  have := congrArg (List.filter p) h
  rwa [List.filter_map, List.filter_map, hcomp] at this

theorem fieldsAt_declaration {fields fields' : List CpField} (order : List Nat)
    (h : fields.map CpField.declaration = fields'.map CpField.declaration) :
    (fieldsAt order fields).map CpField.declaration =
      (fieldsAt order fields').map CpField.declaration := by
  simp only [fieldsAt, List.map_filterMap, ← List.getElem?_map, h]

/-- The counts of the list are those of its slots. -/
def ReferenceList.Complete (l : ReferenceList) : Prop := l.slotsUnscaled.length = l.count

theorem ReferenceList.Complete.slots_eq {l : ReferenceList} (h : l.Complete) :
    l.slots = l.slotsUnscaled := by
  rw [slots, ← h, List.take_length]

/-- What the layout of a class is to its declaration, from where its fields start and the references
of the superclass. -/
structure LaidOut (t : Target) (start : Nat) (superRefs : ReferenceList)
    (ordered fields : List CpField) (l : Layout) : Prop where
  declarations : l.fields.map CpField.declaration = fields.map CpField.declaration
  kinds : ∀ f ∈ l.fields, (sizeofTypeKind t f.kind).isSome
  static : Arranged t 0 l.staticBytes (ordered.filter (·.isStatic)) (l.fields.filter (·.isStatic))
  nonstatic : Arranged t start l.instanceBytes (ordered.filter (!·.isStatic))
    (l.fields.filter (!·.isStatic))
  staticReferences : l.staticReferences.slots = referenceSlots t (l.fields.filter (·.isStatic))
  complete : l.instanceReferences.Complete
  instanceReferences : l.instanceReferences.slots =
    superRefs.slots ++ referenceSlots t (l.fields.filter (!·.isStatic))

theorem layoutFields_laidOut {padding : Option Nat} {super : Option Layout}
    {fields : List CpField} {l : Layout} (hsuper : (superRefs super).Complete)
    (h : layoutFields t padding super fields = some l) :
    LaidOut t (superBytes t super + padding.getD 0) (superRefs super)
      (placementOrder t padding fields) fields l := by
  unfold layoutFields at h
  obtain ⟨order, ho, h⟩ := Option.bind_eq_some_iff.mp h
  obtain ⟨⟨o, fields'⟩, ha, h⟩ := Option.bind_eq_some_iff.mp h
  cases h
  have hperm := fieldOrder_perm ho
  have hall := allocateFields_allocated (hperm.nodup_iff.mpr List.nodup_range) ha
  have hlen : fields'.length = fields.length := by
    simpa using congrArg List.length hall.declarations
  have hat : (fieldsAt order fields').Perm fields' := by
    have hp := hperm.filterMap fun i => fields'[i]?
    rwa [← hlen, filterMap_getElem?] at hp
  have hdecl : (fieldsAt order fields').map CpField.declaration =
      (placementOrder t padding fields).map CpField.declaration := by
    rw [fieldsAt_declaration order hall.declarations, fieldsAt_fieldOrder ho]
  have hcount := fun p => ((hat.filter p).filter fun f => f.isReference).length_eq
  have hstatic := hall.staticRefs
  have hnonstatic := hall.nonstaticRefs
  rw [hcount] at hstatic hnonstatic
  have hc : (superRefs super).count + (referenceSlots t (fields'.filter (!·.isStatic))).length =
      o.nonstaticRefs := by simp [hnonstatic, referenceSlots]
  have hcomplete : ((superRefs super).slots ++
      referenceSlots t (fields'.filter (!·.isStatic))).length = o.nonstaticRefs := by
    rw [List.length_append, hsuper.slots_eq, hsuper, hc]
  refine ⟨hall.declarations, ?_, ?_, ?_, ?_, hcomplete, ?_⟩
  · exact fun f hf => hall.kinds f (hat.mem_iff.mpr hf)
  · exact ⟨_, hat.filter _, filter_declaration (fun _ => rfl) hdecl, hall.static⟩
  · exact ⟨_, hat.filter _, filter_declaration (fun _ => rfl) hdecl, hall.nonstatic⟩
  · exact ReferenceList.Complete.slots_eq (by simp [ReferenceList.Complete, referenceSlots, hstatic])
  · exact ReferenceList.Complete.slots_eq hcomplete

/-- There is a layout where no field is `void`. -/
theorem layoutFields_isSome {padding : Option Nat} {super : Option Layout} {fields : List CpField}
    (h : ∀ f ∈ fields, (sizeofTypeKind t f.kind).isSome) :
    (layoutFields t padding super fields).isSome := by
  obtain ⟨order, ho⟩ : ∃ order, fieldOrder t padding fields = some order := by
    rcases padding with _ | p
    · obtain ⟨sizes, hs⟩ := mapM_isSome h
      exact ⟨_, by rw [fieldOrder, reorderFieldsForCompactness, hs]; rfl⟩
    · exact ⟨_, rfl⟩
  have hlt : ∀ i ∈ order, i < fields.length := fun i hi =>
    List.mem_range.mp ((fieldOrder_perm ho).mem_iff.mp hi)
  obtain ⟨⟨o, fields'⟩, ha⟩ := Option.isSome_iff_exists.mp (allocateFields_isSome (o := {
    staticOffset := 0
    nonstaticOffset := superBytes t super + padding.getD 0
    staticRefs := 0
    nonstaticRefs := (superRefs super).count }) hlt h)
  unfold layoutFields
  simp only [ho, Option.bind_eq_bind, Option.bind_some, ha]
  rfl

/-! ### Linking -/

variable {classes : Classes} {w w' w₁ w₂ : World} {n m : Nat} {l : Layout}

/-- A linked class has the layout that follows from that of its superclass, and a class that is
loaded only has none. -/
structure Inv (t : Target) (classes : Classes) (w : World) : Prop where
  linked : ∀ {n}, (w.state n).isLinked → (w.layout n).isSome
  loaded : ∀ {n}, w.state n = .loaded → w.layout n = none
  layout : ∀ {n l}, w.layout n = some l → layoutClass t classes w n = some l

/-- What linking does to the layouts: it adds some, and none from a bound on. -/
structure Extends (bound : Nat) (w w' : World) : Prop where
  keeps : ∀ {n l}, w.layout n = some l → w'.layout n = some l
  state : ∀ {n}, bound ≤ n → w'.state n = w.state n

namespace Extends

theorem refl (w : World) : Extends n w w := ⟨id, fun _ => rfl⟩

theorem trans (h : Extends n w w₁) (h' : Extends n w₁ w₂) : Extends n w w₂ where
  keeps hl := h'.keeps (h.keeps hl)
  state hn := (h'.state hn).trans (h.state hn)

theorem mono (h : Extends m w w') (hm : m ≤ n) : Extends n w w' where
  keeps := h.keeps
  state hn := h.state (hm.trans hn)

theorem setState (w : World) (s : State) : Extends (n + 1) w (w.setState n s) where
  keeps := id
  state hn := Function.update_of_ne (Nat.ne_of_gt hn) ..

end Extends

theorem layoutClass_congr (h : ∀ {k l}, w.layout k = some l → w'.layout k = some l)
    (hl : layoutClass t classes w n = some l) : layoutClass t classes w' n = some l := by
  unfold layoutClass at hl ⊢
  cases hs : classes.superClass n with
  | none => simpa only [hs] using hl
  | some super =>
    simp only [hs] at hl ⊢
    obtain ⟨ls, hls, hl⟩ := Option.bind_eq_some_iff.mp hl
    rw [h hls, Option.bind_some, hl]

/-- A state in which a class counts as linked comes only after one in which it does. -/
theorem Inv.setState {s : State} (h : Inv t classes w)
    (hs : s.isLinked = true → (w.state n).isLinked) (hne : s ≠ .loaded) :
    Inv t classes (w.setState n s) where
  linked {k} hk := by
    rcases eq_or_ne k n with rfl | hkn
    · exact h.linked (hs (by simpa [World.setState] using hk))
    · exact h.linked (by simpa [World.setState, hkn] using hk)
  loaded {k} hk := by
    rcases eq_or_ne k n with rfl | hkn
    · exact absurd (by simpa [World.setState] using hk) hne
    · exact h.loaded (by simpa [World.setState, hkn] using hk)
  layout hl := layoutClass_congr id (h.layout hl)

/-- The class is linked last. -/
theorem Inv.setLayout (h : Inv t classes w) (hs : w.state n = .loaded)
    (hl : layoutClass t classes w n = some l) :
    Inv t classes ((w.setState n .linked).setLayout n l) := by
  have hkeeps : ∀ {k l'}, w.layout k = some l' →
      ((w.setState n .linked).setLayout n l).layout k = some l' := by
    intro k l' hk
    have hkn : k ≠ n := by
      rintro rfl
      simp [h.loaded hs] at hk
    simpa [World.setLayout, World.setState, hkn] using hk
  refine ⟨?_, ?_, ?_⟩
  · intro k hk
    rcases eq_or_ne k n with rfl | hkn
    · simp [World.setLayout]
    · have := h.linked (n := k) (by simpa [World.setLayout, World.setState, hkn] using hk)
      simpa [World.setLayout, World.setState, hkn] using this
  · intro k hk
    rcases eq_or_ne k n with rfl | hkn
    · simp [World.setLayout, World.setState] at hk
    · have := h.loaded (n := k) (by simpa [World.setLayout, World.setState, hkn] using hk)
      simpa [World.setLayout, World.setState, hkn] using this
  · intro k l' hk
    rcases eq_or_ne k n with rfl | hkn
    · obtain rfl : l = l' := by simpa [World.setLayout] using hk
      exact layoutClass_congr hkeeps hl
    · exact layoutClass_congr hkeeps (h.layout (by
        simpa [World.setLayout, World.setState, hkn] using hk))

theorem Extends.setLayout (h : Inv t classes w) (hs : w.state n = .loaded) :
    Extends (n + 1) w ((w.setState n .linked).setLayout n l) where
  keeps {k l'} hk := by
    have hkn : k ≠ n := by
      rintro rfl
      simp [h.loaded hs] at hk
    simpa [World.setLayout, World.setState, hkn] using hk
  state hn := by simp [World.setLayout, World.setState, Nat.ne_of_gt hn]

/-- What a call of `link_class` keeps. -/
def Keeps (t : Target) (classes : Classes) (link : World → Nat → Option (Bool × World)) : Prop :=
  ∀ ⦃w w' : World⦄ ⦃n : Nat⦄ ⦃failed : Bool⦄, Inv t classes w → link w n = some (failed, w') →
    Inv t classes w' ∧ Extends (n + 1) w w'

theorem linkAll_keeps {link : World → Nat → Option (Bool × World)} (hlink : Keeps t classes link) :
    ∀ {ns : List Nat} {w w' : World} {failed : Bool}, (∀ k ∈ ns, k < n) →
    Inv t classes w → linkAll link w ns = some (failed, w') → Inv t classes w' ∧ Extends n w w'
  | [], w, w', failed, _, hinv, h => by
    cases h
    exact ⟨hinv, .refl w⟩
  | k :: ns, w, w', failed, hlt, hinv, h => by
    have hk := hlt k List.mem_cons_self
    rw [linkAll] at h
    rcases hl : link w k with _ | ⟨_ | _, w₁⟩ <;> rw [hl] at h
    · cases h
    · obtain ⟨hinv, hext⟩ := hlink hinv hl
      obtain ⟨hinv, hext'⟩ := linkAll_keeps hlink (fun i hi => hlt i (List.mem_cons_of_mem k hi))
        hinv h
      exact ⟨hinv, (hext.mono hk).trans hext'⟩
    · cases h
      obtain ⟨hinv, hext⟩ := hlink hinv hl
      exact ⟨hinv, hext.mono hk⟩

theorem linkClass_keeps (t : Target) (classes : Classes) :
    ∀ fuel : Nat, Keeps t classes (linkClass t classes fuel)
  | 0 => by
    intro _ _ _ _ _ h
    cases h
  | fuel + 1 => by
    intro w w' n failed hinv h
    have hall := fun {ns x x' r} =>
      @linkAll_keeps t classes n _ (linkClass_keeps t classes fuel) ns x x' r
    have herror := fun {x : World} (hx : Inv t classes x) =>
      hx.setState (n := n) (s := .linkageError) (fun he => by cases he) (by simp)
    unfold linkClass at h
    by_cases hs : w.state n ≠ .loaded
    · rw [if_pos hs] at h
      cases h
      exact ⟨hinv, .refl w⟩
    rw [if_neg hs] at h
    rcases h₁ : linkAll (linkClass t classes fuel) w (classes.superClass n).toList
      with _ | ⟨_ | _, w₁⟩ <;> rw [h₁] at h
    · cases h
    · obtain ⟨hinv₁, hext₁⟩ := hall (fun k hk => classes.super_lt (Option.mem_toList.mp hk)) hinv h₁
      dsimp only at h
      rcases h₂ : linkAll (linkClass t classes fuel) w₁ (classes.interfaces n)
        with _ | ⟨_ | _, w₂⟩ <;> rw [h₂] at h
      · cases h
      · obtain ⟨hinv₂, hext₂⟩ := hall (fun k hk => classes.interface_lt hk) hinv₁ h₂
        have hext := (hext₁.trans hext₂).mono (Nat.le_succ n)
        have hstate : w₂.state n = .loaded := by
          rw [hext₂.state le_rfl, hext₁.state le_rfl]
          exact not_not.mp hs
        dsimp only at h
        split_ifs at h
        · obtain ⟨l, hl, h⟩ := Option.map_eq_some_iff.mp h
          cases h
          exact ⟨hinv₂.setLayout hstate hl, hext.trans (.setLayout hinv₂ hstate)⟩
        · cases h
          exact ⟨herror hinv₂, hext.trans (.setState w₂ _)⟩
      · cases h
        obtain ⟨hinv₂, hext₂⟩ := hall (fun k hk => classes.interface_lt hk) hinv₁ h₂
        exact ⟨herror hinv₂, ((hext₁.trans hext₂).mono (Nat.le_succ n)).trans (.setState w₂ _)⟩
    · cases h
      obtain ⟨hinv₁, hext₁⟩ := hall (fun k hk => classes.super_lt (Option.mem_toList.mp hk)) hinv h₁
      exact ⟨herror hinv₁, (hext₁.mono (Nat.le_succ n)).trans (.setState w₁ _)⟩

theorem inv_start (t : Target) (classes : Classes) : Inv t classes .start where
  linked h := by cases h
  loaded _ := rfl
  layout h := by cases h

theorem Step.keeps (hinv : Inv t classes w) (h : Step t classes w w') :
    Inv t classes w' ∧ ∀ {n l}, w.layout n = some l → w'.layout n = some l := by
  cases h with
  | link h =>
    obtain ⟨hinv, hext⟩ := linkClass_keeps t classes _ hinv h
    exact ⟨hinv, hext.keeps⟩
  | initializeClass h hs => exact ⟨hinv.setState (fun _ => h) hs, id⟩

theorem Steps.keeps (hinv : Inv t classes w) (h : Steps t classes w w') :
    Inv t classes w' ∧ ∀ {n l}, w.layout n = some l → w'.layout n = some l := by
  induction h with
  | refl => exact ⟨hinv, id⟩
  | tail _ hstep ih =>
    obtain ⟨hinv, hkeeps⟩ := hstep.keeps ih.1
    exact ⟨hinv, fun hl => hkeeps (ih.2 hl)⟩

/-- Nothing has gone wrong so far, and no class has begun to be initialized. -/
structure Fresh (t : Target) (classes : Classes) (w : World) : Prop extends Inv t classes w where
  states : ∀ n, w.state n = .loaded ∨ w.state n = .linked

/-- The class can be linked when its supers can. -/
structure Linkable (t : Target) (classes : Classes) (n : Nat) : Prop where
  verifies : ∀ k ≤ n, classes.verifies k = true
  sizes : ∀ k ≤ n, ∀ f ∈ classes.fields k, (sizeofTypeKind t f.kind).isSome

theorem Linkable.of_le (h : Linkable t classes n) (hm : m ≤ n) : Linkable t classes m where
  verifies k hk := h.verifies k (hk.trans hm)
  sizes k hk := h.sizes k (hk.trans hm)

/-- Calls of `link_class` that do not fail. -/
def Succeeds (t : Target) (classes : Classes) (link : World → Nat → Option (Bool × World))
    (n : Nat) : Prop :=
  ∀ w, Fresh t classes w → ∃ w', link w n = some (false, w') ∧ Fresh t classes w' ∧
    Extends (n + 1) w w' ∧ w'.state n = .linked

theorem linkAll_succeeds {link : World → Nat → Option (Bool × World)} :
    ∀ {ns : List Nat} {w : World}, (∀ k ∈ ns, k < n ∧ Succeeds t classes link k) →
    Fresh t classes w → ∃ w', linkAll link w ns = some (false, w') ∧ Fresh t classes w' ∧
      Extends n w w' ∧ ∀ k ∈ ns, w'.state k = .linked
  | [], w, _, hw => ⟨w, rfl, hw, .refl w, by simp⟩
  | k :: ns, w, h, hw => by
    obtain ⟨hk, hlink⟩ := h k List.mem_cons_self
    obtain ⟨w₁, h₁, hw₁, hext₁, hs₁⟩ := hlink w hw
    obtain ⟨w₂, h₂, hw₂, hext₂, hs₂⟩ := linkAll_succeeds
      (fun i hi => h i (List.mem_cons_of_mem k hi)) hw₁
    refine ⟨w₂, ?_, hw₂, (hext₁.mono hk).trans hext₂, ?_⟩
    · simp [linkAll, h₁, h₂]
    · intro i hi
      rcases List.mem_cons.mp hi with rfl | hi
      · rcases hw₂.states i with h | h
        · obtain ⟨l, hl⟩ := Option.isSome_iff_exists.mp (hw₁.linked (n := i) (by rw [hs₁]; rfl))
          exact absurd (hext₂.keeps hl) (by simp [hw₂.loaded h])
        · exact h
      · exact hs₂ i hi

theorem linkClass_succeeds (classes : Classes) : ∀ {fuel n : Nat}, n < fuel →
    Linkable t classes n → Succeeds t classes (linkClass t classes fuel) n
  | fuel + 1, n, hfuel, hn, w, hw => by
    unfold linkClass
    by_cases hs : w.state n ≠ .loaded
    · rw [if_pos hs]
      exact ⟨w, rfl, hw, .refl w, (hw.states n).resolve_left hs⟩
    rw [if_neg hs]
    have hrec : ∀ k, k < n → k < n ∧ Succeeds t classes (linkClass t classes fuel) k := fun k hk =>
      ⟨hk, linkClass_succeeds classes (by omega) (hn.of_le hk.le)⟩
    obtain ⟨w₁, h₁, hw₁, hext₁, hsuper⟩ := linkAll_succeeds
      (fun k hk => hrec k (classes.super_lt (Option.mem_toList.mp hk))) hw
    obtain ⟨w₂, h₂, hw₂, hext₂, -⟩ := linkAll_succeeds
      (fun k hk => hrec k (classes.interface_lt (n := n) hk)) hw₁
    have hstate : w₂.state n = .loaded := by
      rw [hext₂.state le_rfl, hext₁.state le_rfl]
      exact not_not.mp hs
    obtain ⟨l, hl⟩ : ∃ l, layoutClass t classes w₂ n = some l := by
      unfold layoutClass
      rcases hc : classes.superClass n with _ | super
      · exact Option.isSome_iff_exists.mp (layoutFields_isSome (hn.sizes n le_rfl))
      · obtain ⟨ls, hls⟩ := Option.isSome_iff_exists.mp (hw₁.linked (n := super)
          (by rw [hsuper super (by simp [hc])]; rfl))
        simp only [hext₂.keeps hls, Option.bind_some]
        exact Option.isSome_iff_exists.mp (layoutFields_isSome (hn.sizes n le_rfl))
    refine ⟨(w₂.setState n .linked).setLayout n l, ?_, ?_, ?_, ?_⟩
    · simp only [h₁, h₂, hn.verifies n le_rfl, if_true, hl, Option.map_some]
    · refine ⟨hw₂.toInv.setLayout hstate hl, fun k => ?_⟩
      rcases eq_or_ne k n with rfl | hk
      · exact Or.inr (by simp [World.setLayout, World.setState])
      · simpa [World.setLayout, World.setState, hk] using hw₂.states k
    · exact ((hext₁.trans hext₂).mono (Nat.le_succ n)).trans (.setLayout hw₂.toInv hstate)
    · simp [World.setLayout, World.setState]

/-- Classes that pass the analysis and have no `void` fields can be linked. -/
theorem exists_linked (h : Linkable t classes n) :
    ∃ w, Steps t classes .start w ∧ w.state n = .linked := by
  obtain ⟨w, hl, -, -, hs⟩ := linkClass_succeeds classes (Nat.lt_succ_self n) h .start
    ⟨inv_start t classes, fun _ => Or.inl rfl⟩
  exact ⟨w, .single (.link hl), hs⟩

/-! ### The fields of an instance -/

theorem lineage_none (h : classes.superClass n = none) : lineage classes n = [n] := by
  rw [lineage]
  split
  · rfl
  · simp_all

theorem lineage_some {super : Nat} (h : classes.superClass n = some super) :
    lineage classes n = n :: lineage classes super := by
  rw [lineage]
  split
  · simp_all
  · simp_all

theorem declaredFields_eq (h : w.layout n = some l) : w.declaredFields classes n = l.fields := by
  rw [World.declaredFields, h]

theorem instanceStart_none (h : classes.superClass n = none) :
    instanceStart t classes n =
      t.sizeofObjHeader + (classPadding t (classes.name n)).getD 0 := by
  rw [instanceStart]
  split
  · rfl
  · simp_all

theorem instanceStart_some {super : Nat} (h : classes.superClass n = some super) :
    instanceStart t classes n = Packing.endOf (instanceStart t classes super)
      ((ownFields t classes super).map (CpField.size t)) +
        (classPadding t (classes.name n)).getD 0 := by
  rw [instanceStart]
  split
  · simp_all
  · simp_all

/-- The fields that the class declares are placed where its declaration asks for it. -/
def OwnPlaced (t : Target) (classes : Classes) (w : World) (n : Nat) : Prop :=
  ∃ l, w.layout n = some l ∧ Arranged t (instanceStart t classes n) l.instanceBytes
    (ownFields t classes n) (l.fields.filter (!·.isStatic))

/-- What is known of a class with a layout, from all of its superclasses. -/
structure Chain (t : Target) (classes : Classes) (w : World) (n : Nat) (l : Layout) : Prop where
  declarations : l.fields.map CpField.declaration =
    (classes.fields n).map CpField.declaration
  kinds : ∀ f ∈ l.fields, (sizeofTypeKind t f.kind).isSome
  instanceKinds : ∀ f ∈ w.instanceFields classes n, (sizeofTypeKind t f.kind).isSome
  static : Arranged t 0 l.staticBytes (ownStatics t classes n) (w.staticFields classes n)
  nonstatic : Packed t.sizeofObjHeader l.instanceBytes
    ((w.instanceFields classes n).map (CpField.extent t))
  placed : ∀ c ∈ lineage classes n, OwnPlaced t classes w c
  complete : l.instanceReferences.Complete
  staticReferences : l.staticReferences.slots = referenceSlots t (w.staticFields classes n)
  instanceReferences :
    l.instanceReferences.slots.Perm (referenceSlots t (w.instanceFields classes n))

theorem chain_cons {super : Option Layout} {inherited : List CpField} {supers : List Nat}
    (hline : lineage classes n = n :: supers)
    (hinst : w.instanceFields classes n = (l.fields.filter (!·.isStatic)) ++ inherited)
    (hlay : w.layout n = some l)
    (hl : layoutFields t (classPadding t (classes.name n)) super (classes.fields n) = some l)
    (hstart : instanceStart t classes n =
      superBytes t super + (classPadding t (classes.name n)).getD 0)
    (hkinds : ∀ f ∈ inherited, (sizeofTypeKind t f.kind).isSome)
    (hpack : Packed t.sizeofObjHeader (superBytes t super) (inherited.map (CpField.extent t)))
    (hplaced : ∀ c ∈ supers, OwnPlaced t classes w c) (hcomplete : (superRefs super).Complete)
    (hrefs : (superRefs super).slots.Perm (referenceSlots t inherited)) :
    Chain t classes w n l := by
  have hlaid := layoutFields_laidOut hcomplete hl
  have hstatic : w.staticFields classes n = l.fields.filter (·.isStatic) := by
    rw [World.staticFields, declaredFields_eq hlay]
  have hown : Packed (superBytes t super) l.instanceBytes
      ((l.fields.filter (!·.isStatic)).map (CpField.extent t)) :=
    (hlaid.nonstatic.packed fun f hf => hlaid.kinds f (List.mem_of_mem_filter hf)).mono
      (Nat.le_add_right _ _) le_rfl
  refine ⟨hlaid.declarations, hlaid.kinds, ?_, ?_, ?_, ?_, hlaid.complete, ?_, ?_⟩
  · intro f hf
    rw [hinst, List.mem_append] at hf
    exact hf.elim (fun hf => hlaid.kinds f (List.mem_of_mem_filter hf)) (hkinds f)
  · rw [hstatic]
    exact hlaid.static
  · rw [hinst, List.map_append]
    exact (hpack.append hown).perm List.perm_append_comm
  · intro c hc
    rw [hline] at hc
    rcases List.mem_cons.mp hc with rfl | hc
    · refine ⟨l, hlay, ?_⟩
      rw [hstart]
      exact hlaid.nonstatic
    · exact hplaced c hc
  · rw [hstatic, hlaid.staticReferences]
  · rw [hlaid.instanceReferences, hinst]
    refine (hrefs.append_right _).trans ?_
    simp only [referenceSlots, List.filter_append, List.map_append]
    exact List.perm_append_comm

theorem Inv.chain (hinv : Inv t classes w) {n : Nat} {l : Layout} (hlay : w.layout n = some l) :
    Chain t classes w n l := by
  have hl := hinv.layout hlay
  unfold layoutClass at hl
  have hown : w.instanceFields classes n = (l.fields.filter (!·.isStatic)) ++
      ((lineage classes n).tail.flatMap fun c =>
        (w.declaredFields classes c).filter (!·.isStatic)) := by
    rw [← @declaredFields_eq classes w n l hlay, World.instanceFields]
    rcases hs : classes.superClass n with _ | super
    · simp [lineage_none hs]
    · simp [lineage_some hs]
  rcases hs : classes.superClass n with _ | super
  · rw [hs] at hl
    rw [lineage_none hs] at hown
    exact chain_cons (lineage_none hs) hown hlay hl (instanceStart_none hs) (by simp) (.nil le_rfl)
      (by simp) rfl (by rfl)
  · simp only [hs] at hl
    obtain ⟨ls, hls, hl⟩ := Option.bind_eq_some_iff.mp hl
    have := classes.super_lt hs
    have hsuper := hinv.chain hls
    obtain ⟨ls', hls', harr⟩ := hsuper.placed super (by
      rcases hss : classes.superClass super with _ | _
      · simp [lineage_none hss]
      · simp [lineage_some hss])
    obtain rfl : ls = ls' := by rwa [hls, Option.some_inj] at hls'
    have hstart := @instanceStart_some t classes n super hs
    rw [← harr.limit_eq] at hstart
    rw [lineage_some hs] at hown
    exact chain_cons (lineage_some hs) hown hlay hl hstart hsuper.instanceKinds hsuper.nonstatic
      hsuper.placed hsuper.complete hsuper.instanceReferences
  termination_by n

/-- Fields with their bytes: each is aligned to its size, no two of them overlap, and all lie between
the bounds. -/
structure Placed (t : Target) (lo hi : Nat) (fields : List CpField) : Prop where
  sizes : ∀ f ∈ fields, ∃ s, sizeofTypeKind t f.kind = some s ∧ (f.extent t).size = s ∧
    f.byteOffset % s = 0
  within : ∀ f ∈ fields, lo ≤ f.byteOffset ∧ (f.extent t).limit ≤ hi
  disjoint : fields.Pairwise fun f g => (f.extent t).Disjoint (g.extent t)

theorem placed_of_packed {lo hi : Nat} {fields : List CpField}
    (hk : ∀ f ∈ fields, (sizeofTypeKind t f.kind).isSome)
    (h : Packed lo hi (fields.map (CpField.extent t))) : Placed t lo hi fields where
  sizes f hf := by
    obtain ⟨s, hs⟩ := Option.isSome_iff_exists.mp (hk f hf)
    have hsize : (f.extent t).size = s := by simp [CpField.extent, CpField.size, hs]
    refine ⟨s, hs, hsize, ?_⟩
    rw [← hsize]
    exact h.aligned _ (List.mem_map_of_mem hf)
  within f hf := h.within _ (List.mem_map_of_mem hf)
  disjoint := List.pairwise_map.mp h.disjoint

theorem Chain.instance_placed (h : Chain t classes w n l) :
    Placed t t.sizeofObjHeader l.instanceBytes (w.instanceFields classes n) :=
  placed_of_packed h.instanceKinds h.nonstatic

theorem Chain.static_placed (h : Chain t classes w n l) (hl : w.layout n = some l) :
    Placed t 0 l.staticBytes (w.staticFields classes n) := by
  have hkinds : ∀ f ∈ w.staticFields classes n, (sizeofTypeKind t f.kind).isSome := by
    intro f hf
    rw [World.staticFields, declaredFields_eq hl] at hf
    exact h.kinds f (List.mem_of_mem_filter hf)
  exact placed_of_packed hkinds (h.static.packed hkinds)

/-- Every field of a linked class has bytes of its own between the header and the end of the
instances, or in the block of the static fields, and linking more classes moves none of them. -/
theorem fields_placed (run : Steps t classes .start w) (hn : (w.state n).isLinked) :
    ∃ l, w.layout n = some l ∧
      l.fields.map CpField.declaration = (classes.fields n).map CpField.declaration ∧
      Placed t t.sizeofObjHeader l.instanceBytes (w.instanceFields classes n) ∧
      Placed t 0 l.staticBytes (w.staticFields classes n) ∧
      ∀ w', Steps t classes w w' → ∀ c ∈ lineage classes n,
        (w.layout c).isSome ∧ w'.layout c = w.layout c := by
  obtain ⟨hinv, -⟩ := run.keeps (inv_start t classes)
  obtain ⟨l, hl⟩ := Option.isSome_iff_exists.mp (hinv.linked hn)
  have hchain := hinv.chain hl
  refine ⟨l, hl, hchain.declarations, hchain.instance_placed, hchain.static_placed hl, ?_⟩
  intro w' hsteps c hc
  obtain ⟨lc, hlc, -⟩ := hchain.placed c hc
  rw [hlc, (hsteps.keeps hinv).2 hlc]
  exact ⟨rfl, rfl⟩

def longField : CpField := { parsedDescriptor := { baseKind := .long } }

def objectField : CpField := { parsedDescriptor := { baseKind := .reference } }

/-- `java/lang/Object` and three classes, each a subclass of the one before. -/
def longClasses : Classes where
  name n := match n with
    | 0 => "java/lang/Object"
    | 1 => "Longs"
    | 2 => "MoreLongs"
    | _ => "Last"
  superClass n := match n with
    | 1 => some 0
    | 2 => some 1
    | 3 => some 2
    | _ => none
  interfaces _ := []
  fields n := match n with
    | 1 | 2 => List.replicate 40000 longField
    | 3 => [objectField]
    | _ => []
  verifies _ := true
  super_lt {n s} h := by
    split at h <;> cases h <;> decide
  interface_lt h := by simp at h

theorem longClasses_linkable (t : Target) (n : Nat) : Linkable t longClasses n where
  verifies _ _ := rfl
  sizes k _ f hf := by
    simp only [longClasses] at hf
    split at hf
    · rw [(List.mem_replicate.mp hf).2]
      rfl
    · rw [(List.mem_replicate.mp hf).2]
      rfl
    · rw [List.mem_singleton.mp hf]
      rfl
    · simp at hf

theorem longClasses_placed : ∃ w l, Steps .native64 longClasses .start w ∧
    w.layout 3 = some l ∧
    Placed .native64 (Target.sizeofObjHeader .native64) l.instanceBytes
      (w.instanceFields longClasses 3) := by
  obtain ⟨w, hw, hs⟩ := exists_linked (longClasses_linkable .native64 3)
  obtain ⟨l, hl, -, hplaced, -⟩ := fields_placed hw (n := 3) (by rw [hs]; rfl)
  exact ⟨w, l, hw, hl, hplaced⟩

/-! ### The lists of references -/

theorem reference_size {f : CpField} (h : f.isReference) : f.size t = t.sizeofPointer := by
  have hk : f.kind = .reference := by simpa [CpField.isReference] using h
  simp [CpField.size, hk, sizeofTypeKind]

theorem sizeofPointer_pos : 0 < t.sizeofPointer := by cases t <;> decide

/-- The slot of a reference that has been placed. -/
theorem reference_slot {lo hi : Nat} {fields : List CpField} (h : Placed t lo hi fields)
    {f : CpField} (hf : f ∈ fields) (hr : f.isReference) :
    f.byteOffset = f.byteOffset / t.sizeofPointer * t.sizeofPointer := by
  obtain ⟨s, -, hs, hmod⟩ := h.sizes f hf
  rw [show (f.extent t).size = f.size t from rfl, reference_size hr] at hs
  rw [← hs] at hmod
  exact (Nat.div_mul_cancel (Nat.dvd_of_mod_eq_zero hmod)).symm

theorem limit_le_iff {f : CpField} {slot : Nat} (hr : f.isReference)
    (hs : f.byteOffset = slot * t.sizeofPointer) :
    (f.extent t).limit ≤ 2 ^ 16 * t.sizeofPointer ↔ slot < 2 ^ 16 := by
  rw [Extent.limit, CpField.extent, reference_size hr, hs, ← Nat.succ_mul]
  exact Nat.mul_le_mul_right_iff sizeofPointer_pos

/-- A list of the slots as `u16` has all of them right if and only if they fit. -/
theorem enumerates_iff {lo hi : Nat} {fields : List CpField} {l : ReferenceList}
    (h : Placed t lo hi fields) (hl : l.slots.Perm (referenceSlots t fields)) :
    Enumerates t l fields ↔
      ∀ f ∈ fields, f.isReference → (f.extent t).limit ≤ 2 ^ 16 * t.sizeofPointer := by
  refine ⟨fun ⟨_, hmem⟩ f hf hr => ?_, fun hfit => ?_⟩
  · have hs := reference_slot h hf hr
    rw [limit_le_iff hr hs]
    have hin := hl.mem_iff.mp ((hmem _).mpr ⟨f, hf, hr, hs⟩)
    obtain ⟨g, -, hg⟩ := List.mem_map.mp hin
    rw [← hg]
    exact Nat.mod_lt _ (by decide)
  · have hslots : referenceSlots t fields =
        (fields.filter (·.isReference)).map fun f => f.byteOffset / t.sizeofPointer := by
      refine List.map_congr_left fun f hf => ?_
      obtain ⟨hf, hr⟩ := List.mem_filter.mp hf
      exact Nat.mod_eq_of_lt ((limit_le_iff hr (reference_slot h hf hr)).mp (hfit f hf hr))
    rw [hslots] at hl
    refine ⟨hl.nodup_iff.mpr ?_, fun slot => ?_⟩
    · refine List.pairwise_map.mpr ((h.disjoint.filter _).imp_of_mem ?_)
      intro f g hf hg hd heq
      obtain ⟨hf, hfr⟩ := List.mem_filter.mp hf
      obtain ⟨hg, hgr⟩ := List.mem_filter.mp hg
      refine hd.offset_ne ?_ ?_ ?_
      · exact sizeofPointer_pos.trans_eq (reference_size hfr).symm
      · exact sizeofPointer_pos.trans_eq (reference_size hgr).symm
      · show f.byteOffset = g.byteOffset
        rw [reference_slot h hf hfr, heq, ← reference_slot h hg hgr]
    · rw [hl.mem_iff]
      simp only [List.mem_map, List.mem_filter, and_assoc]
      refine exists_congr fun f => and_congr_right fun hf => and_congr_right fun hr => ?_
      have hs := reference_slot h hf hr
      refine ⟨fun he => he ▸ hs, fun he => ?_⟩
      rw [he, Nat.mul_div_cancel _ sizeofPointer_pos]

theorem slotsFit_iff {start limit : Nat} {declared fields : List CpField}
    (h : Arranged t start limit declared fields) :
    SlotsFit t start declared ↔
      ∀ f ∈ fields, f.isReference → (f.extent t).limit ≤ 2 ^ 16 * t.sizeofPointer := by
  obtain ⟨placed, hperm, hdecl, hplaced⟩ := h
  have hzip : (declared.map CpField.isReference).zip
      (Packing.placeAll start (declared.map (CpField.size t))) =
      placed.map fun f => (f.isReference, f.extent t) := by
    rw [← map_declaration (fun _ => rfl) hdecl, ← map_declaration (fun _ => rfl) hdecl,
      ← hplaced.extents, List.zip_map']
  have hfit : SlotsFit t start declared ↔ ∀ p ∈ (declared.map CpField.isReference).zip
      (Packing.placeAll start (declared.map (CpField.size t))),
      p.1 = true → p.2.limit ≤ 2 ^ 16 * t.sizeofPointer := by
    simp only [SlotsFit, List.zip_map_left, List.forall_mem_map, Prod.map]
    rfl
  rw [hfit, hzip]
  simp only [List.forall_mem_map]
  exact forall_congr' fun f => imp_congr_left hperm.mem_iff

theorem Chain.instanceReferences_iff (h : Chain t classes w n l) :
    Enumerates t l.instanceReferences (w.instanceFields classes n) ↔
      ∀ c ∈ lineage classes n, SlotsFit t (instanceStart t classes c) (ownFields t classes c) := by
  rw [enumerates_iff h.instance_placed h.instanceReferences]
  simp only [World.instanceFields, List.mem_flatMap, forall_exists_index, and_imp]
  constructor
  · intro hall c hc
    obtain ⟨lc, hlc, harr⟩ := h.placed c hc
    rw [slotsFit_iff harr]
    intro f hf
    exact hall f c hc (by rwa [declaredFields_eq hlc])
  · intro hall f c hc hf
    obtain ⟨lc, hlc, harr⟩ := h.placed c hc
    rw [declaredFields_eq hlc] at hf
    exact (slotsFit_iff harr).mp (hall c hc) f hf

/-- The lists of a linked class have exactly the slots of its references if and only if the
references that it and its superclasses declare end within `2 ^ 16` pointers. -/
theorem references_enumerated_iff (run : Steps t classes .start w) (hn : (w.state n).isLinked) :
    ∃ l, w.layout n = some l ∧
      ((Enumerates t l.instanceReferences (w.instanceFields classes n) ∧
        Enumerates t l.staticReferences (w.staticFields classes n)) ↔
      ReferencesFit t classes n) := by
  obtain ⟨hinv, -⟩ := run.keeps (inv_start t classes)
  obtain ⟨l, hl⟩ := Option.isSome_iff_exists.mp (hinv.linked hn)
  have hchain := hinv.chain hl
  refine ⟨l, hl, and_congr hchain.instanceReferences_iff ?_⟩
  rw [enumerates_iff (hchain.static_placed hl) (.of_eq hchain.staticReferences),
    slotsFit_iff hchain.static]

theorem longClasses_enumerated : ∃ w l, Steps .native64 longClasses .start w ∧
    w.layout 1 = some l ∧
    ((Enumerates .native64 l.instanceReferences (w.instanceFields longClasses 1) ∧
        Enumerates .native64 l.staticReferences (w.staticFields longClasses 1)) ↔
      ReferencesFit .native64 longClasses 1) := by
  obtain ⟨w, hw, hs⟩ := exists_linked (longClasses_linkable .native64 1)
  obtain ⟨l, hl, hiff⟩ := references_enumerated_iff hw (n := 1) (by rw [hs]; rfl)
  exact ⟨w, l, hw, hl, hiff⟩

theorem longClasses_padding (n : Nat) : classPadding .native64 (longClasses.name n) = none := by
  simp only [longClasses]
  split <;> decide

theorem placementOrder_replicate {f : CpField} (hf : f.size t = 8) (n : Nat) :
    placementOrder t none (List.replicate n f) = List.replicate n f := by
  simp [placementOrder, List.filter_replicate, hf]

theorem ownFields_replicate {f : CpField} {k : Nat} (hf : f.size .native64 = 8)
    (hs : f.isStatic = false) (hk : longClasses.fields n = List.replicate k f) :
    ownFields .native64 longClasses n = List.replicate k f := by
  rw [ownFields, longClasses_padding, hk, placementOrder_replicate hf, List.filter_replicate, hs]
  rfl

/-- The fields of `Last` start where a slot of 16 bits does not reach. -/
theorem instanceStart_longClasses : instanceStart .native64 longClasses 3 = 640016 := by
  have h₀ : ownFields .native64 longClasses 0 = List.replicate 0 longField :=
    ownFields_replicate rfl rfl rfl
  have h₁ : ownFields .native64 longClasses 1 = List.replicate 40000 longField :=
    ownFields_replicate rfl rfl rfl
  have h₂ : ownFields .native64 longClasses 2 = List.replicate 40000 longField :=
    ownFields_replicate rfl rfl rfl
  have hsizes : ∀ k, (List.replicate k longField).map (CpField.size .native64) =
      List.replicate k 8 := fun k => List.map_replicate
  have hend := @Packing.endOf_replicate 8 (by decide)
  have s₀ : instanceStart .native64 longClasses 0 = 16 := by
    rw [@instanceStart_none _ longClasses 0 rfl, longClasses_padding]
    rfl
  have s₁ : instanceStart .native64 longClasses 1 = 16 := by
    rw [@instanceStart_some _ longClasses 1 0 rfl, longClasses_padding, s₀, h₀]
    rfl
  have s₂ : instanceStart .native64 longClasses 2 = 320016 := by
    rw [@instanceStart_some _ longClasses 2 1 rfl, longClasses_padding, s₁, h₁, hsizes,
      @hend 40000 16 rfl, Option.getD_none]
  rw [@instanceStart_some _ longClasses 3 2 rfl, longClasses_padding, s₂, h₂, hsizes,
    @hend 40000 320016 rfl, Option.getD_none]

/-- The slot of the last field is 2 ^ 16 too small. -/
theorem lastReference_lost : ∃ w l, Steps .native64 longClasses .start w ∧
    (w.state 3).isLinked ∧ w.layout 3 = some l ∧
    ¬ Enumerates .native64 l.instanceReferences (w.instanceFields longClasses 3) := by
  obtain ⟨w, hw, hs⟩ := exists_linked (longClasses_linkable .native64 3)
  have hlinked : (w.state 3).isLinked := by
    rw [hs]
    rfl
  obtain ⟨hinv, -⟩ := hw.keeps (inv_start _ _)
  obtain ⟨l, hl⟩ := Option.isSome_iff_exists.mp (hinv.linked hlinked)
  refine ⟨w, l, hw, hlinked, hl, fun henum => ?_⟩
  have hfit := (hinv.chain hl).instanceReferences_iff.mp henum 3
    (by rw [lineage_some rfl]; exact List.mem_cons_self)
  rw [@ownFields_replicate 3 objectField 1 rfl rfl rfl, instanceStart_longClasses] at hfit
  exact absurd (hfit (objectField, ⟨640016, 8⟩) (by decide) rfl) (by decide)

end BJvm.FieldLayout
