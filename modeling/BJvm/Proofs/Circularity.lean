import BJvm.Proofs.LoaderBindings
import Mathlib.Data.List.Nodup

/-!
# Class circularity

`inchoate_classes` has the names that `lookup_class` is loading, without the loader or the thread, and
`define_class` raises a `ClassCircularityError` where a superclass or superinterface has one of them.
A lookup of a name that is being loaded takes the mark of the other one away when it ends, and a
lookup that runs out of memory leaves its own.
-/

namespace BJvm.Loading

variable {w w' : World} {t t' : ThreadId} {rest calls l : List Activation} {cl cl' : LoaderId}
  {name classname chars : Name} {c : ClassId} {raise : Bool} {e : Event}
  {classpath : Name → Option (Except Name ClassFile)}

/-! ### Lookups that are not finished -/

/-- The loader and the name of a lookup that waits for its load. -/
def Activation.pending : Activation → Option (LoaderId × Name)
  | .awaitLoad cl _ classname _ _ => some (cl, classname)
  | _ => none

abbrev pending (calls : List Activation) : List (LoaderId × Name) :=
  calls.filterMap Activation.pending

/-- A lookup of the name by the loader is not finished. -/
def IsLoading (w : World) (cl : LoaderId) (name : Name) : Prop :=
  ∃ t, (cl, name) ∈ pending (w.thread t).control

/-- The names recorded are those of the lookups not finished, one for each name. -/
structure MarksExact (w : World) : Prop where
  recorded : ∀ name, w.inchoate name = true ↔ ∃ cl, IsLoading w cl name
  loader : ∀ {cl cl' name}, IsLoading w cl name → IsLoading w cl' name → cl = cl'

/-! ### Superclasses of themselves -/

/-- What the calls below a call are to it. -/
inductive Link
  | definition
  | load (chars : Name)
  | request

/-- The classes that wait for the call on top: the class that it defines, the lookup that this is
made for, the class of which that lookup resolves a superclass or superinterface, and so on. -/
def waitingFrom : Link → List Activation → List (LoaderId × Name)
  | .definition, .resolveSupers cl chars _ _ :: rest =>
    (cl, chars) :: waitingFrom (.load chars) rest
  | .load chars, .frame _ :: rest => waitingFrom (.load chars) rest
  | .load chars, .awaitLoad cl _ classname _ _ :: rest =>
    if classname = chars then (cl, classname) :: waitingFrom .request rest else []
  | .request, .awaitLookup request :: rest =>
    if request.origin = .definition then waitingFrom .definition rest else []
  | _, _ => []

/-- The step begins no lookup of a name that is being loaded, ends none for want of memory, and comes
to a superclass or superinterface only if a class of its name is being loaded just when the same
class waits for this one. -/
structure Undisturbed (t : ThreadId) (w : World) (e : Event) : Prop where
  memory : e ≠ .outOfMemory
  begins : ∀ junk cl name raise rest dimensions classname, e = .advance junk →
    (w.thread t).control = .lookupClass cl name raise :: rest →
    component name = (dimensions, .inr classname) → w.initiating cl classname = none →
    ∀ cl', ¬ IsLoading w cl' classname
  superclass : ∀ junk cl chars c i todo rest info, e = .advance junk →
    (w.thread t).control = .resolveSupers cl chars c (i :: todo) :: rest →
    (w.thread t).returned = none → w.info c i = some info →
    ((∃ cl', IsLoading w cl' info.name) ↔
      (cl, info.name) ∈ waitingFrom .definition (w.thread t).control)

/-! ### What a step does to the lookups -/

/-- The step leaves the other threads and the marks as they are, and the thread with the lookups. -/
structure LeavesPending (w w' : World) (t : ThreadId) (l : List (LoaderId × Name)) : Prop where
  inchoate : w'.inchoate = w.inchoate
  others : ∀ t' ≠ t, w'.thread t' = w.thread t'
  control : pending (w'.thread t).control = l

theorem LeavesPending.of_eq {th : Thread} {l : List (LoaderId × Name)}
    (h : w'.inchoate = w.inchoate) (hthread : w'.thread = Function.update w.thread t th)
    (hl : pending th.control = l) : LeavesPending w w' t l where
  inchoate := h
  others t' hne := by rw [hthread, Function.update_of_ne hne]
  control := by rw [hthread, Function.update_self, hl]

/-- Everything that an undisturbed step can do to the lookups. -/
inductive LookupStep (w w' : World) (t : ThreadId) : Prop
  | same : LeavesPending w w' t (pending (w.thread t).control) → LookupStep w w' t
  | begins {cl : LoaderId} {classname : Name} : (∀ cl', ¬ IsLoading w cl' classname) →
      LeavesPending (w.setInchoate classname true) w' t
        ((cl, classname) :: pending (w.thread t).control) → LookupStep w w' t
  | ends {cl : LoaderId} {classname : Name} {l : List (LoaderId × Name)} :
      pending (w.thread t).control = (cl, classname) :: l →
      LeavesPending (w.setInchoate classname false) w' t l → LookupStep w w' t

abbrev pendingNames (w : World) (t : ThreadId) : List Name :=
  (pending (w.thread t).control).map Prod.snd

/-- The marks are the names of the lookups not finished, and each has one lookup. -/
structure MarksInv (w : World) : Prop where
  recorded : ∀ name, w.inchoate name = true ↔ ∃ t, name ∈ pendingNames w t
  nodup : ∀ t, (pendingNames w t).Nodup
  thread : ∀ {t t' name}, name ∈ pendingNames w t → name ∈ pendingNames w t' → t = t'

theorem mem_pendingNames : name ∈ pendingNames w t ↔
    ∃ cl, (cl, name) ∈ pending (w.thread t).control := by
  rw [pendingNames, List.mem_map]
  constructor
  · rintro ⟨⟨cl, n⟩, h, rfl⟩
    exact ⟨cl, h⟩
  · rintro ⟨cl, h⟩
    exact ⟨_, h, rfl⟩

namespace LeavesPending

variable {l : List (LoaderId × Name)}

theorem names_of_ne (h : LeavesPending w w' t l) (hne : t' ≠ t) :
    pendingNames w' t' = pendingNames w t' := by
  rw [pendingNames, h.others t' hne]

theorem names (h : LeavesPending w w' t l) : pendingNames w' t = l.map Prod.snd := by
  rw [pendingNames, h.control]

end LeavesPending

namespace MarksInv

theorem same (h : MarksInv w) (hs : LeavesPending w w' t (pending (w.thread t).control)) :
    MarksInv w' := by
  have hnames : pendingNames w' = pendingNames w := funext fun t' => by
    rcases eq_or_ne t' t with rfl | hne
    · exact hs.names
    · exact hs.names_of_ne hne
  refine ⟨fun name => ?_, fun t' => hnames ▸ h.nodup t', fun {t₁ t₂ name} h₁ h₂ => ?_⟩
  · rw [hs.inchoate, h.recorded, hnames]
  · rw [hnames] at h₁ h₂
    exact h.thread h₁ h₂

theorem begins (h : MarksInv w) (hnew : ∀ cl', ¬ IsLoading w cl' classname)
    (hs : LeavesPending (w.setInchoate classname true) w' t
      ((cl, classname) :: pending (w.thread t).control)) : MarksInv w' := by
  have hnot : ∀ t', classname ∉ pendingNames w t' := fun t' hmem => by
    obtain ⟨cl', hmem⟩ := mem_pendingNames.mp hmem
    exact hnew cl' ⟨t', hmem⟩
  have hself : pendingNames w' t = classname :: pendingNames w t := hs.names
  have hmem : ∀ {t' name}, name ∈ pendingNames w' t' →
      (t' = t ∧ name = classname) ∨ (name ≠ classname ∧ name ∈ pendingNames w t') :=
    fun {t' name} hmem => by
      rcases eq_or_ne t' t with rfl | hne
      · rw [hself, List.mem_cons] at hmem
        rcases hmem with rfl | hmem
        · exact .inl ⟨rfl, rfl⟩
        · exact .inr ⟨fun heq => hnot t' (heq ▸ hmem), hmem⟩
      · rw [hs.names_of_ne hne] at hmem
        exact .inr ⟨fun heq => hnot t' (heq ▸ hmem), hmem⟩
  refine ⟨fun name => ?_, fun t' => ?_, fun {t₁ t₂ name} h₁ h₂ => ?_⟩
  · rw [hs.inchoate]
    rcases eq_or_ne name classname with rfl | hne
    · refine ⟨fun _ => ⟨t, hself ▸ List.mem_cons_self⟩, fun _ => ?_⟩
      exact Function.update_self ..
    · have hmark : (w.setInchoate classname true).inchoate name = w.inchoate name :=
        Function.update_of_ne hne ..
      rw [hmark, h.recorded]
      refine exists_congr fun t' => ?_
      rcases eq_or_ne t' t with rfl | hne'
      · rw [hself, List.mem_cons, or_iff_right hne]
      · exact (congrArg (name ∈ ·) (hs.names_of_ne hne')).to_iff.symm
  · rcases eq_or_ne t' t with rfl | hne
    · rw [hself]
      exact List.nodup_cons.mpr ⟨hnot t', h.nodup t'⟩
    · exact (hs.names_of_ne hne).symm ▸ h.nodup t'
  · rcases hmem h₁ with ⟨rfl, rfl⟩ | ⟨hne, h₁⟩ <;> rcases hmem h₂ with ⟨rfl, heq⟩ | ⟨hne', h₂⟩
    · rfl
    · exact absurd rfl hne'
    · exact absurd heq hne
    · exact h.thread h₁ h₂

theorem ends {l : List (LoaderId × Name)} (h : MarksInv w)
    (hcontrol : pending (w.thread t).control = (cl, classname) :: l)
    (hs : LeavesPending (w.setInchoate classname false) w' t l) : MarksInv w' := by
  have hself : pendingNames w t = classname :: pendingNames w' t := by
    rw [hs.names, pendingNames, hcontrol, List.map_cons]
  obtain ⟨hnot, hnodup⟩ := List.nodup_cons.mp (hself ▸ h.nodup t)
  have hmem : ∀ {t' name}, name ∈ pendingNames w' t' ↔
      name ≠ classname ∧ name ∈ pendingNames w t' := fun {t' name} => by
    rcases eq_or_ne t' t with rfl | hne
    · rw [hself, List.mem_cons]
      refine ⟨fun hmem => ⟨fun heq => hnot (heq ▸ hmem), .inr hmem⟩, ?_⟩
      rintro ⟨hne, heq | hmem⟩
      · exact absurd heq hne
      · exact hmem
    · rw [hs.names_of_ne hne]
      refine ⟨fun hmem => ⟨fun heq => hne ?_, hmem⟩, And.right⟩
      exact h.thread (heq ▸ hmem) (hself ▸ List.mem_cons_self)
  refine ⟨fun name => ?_, fun t' => ?_, fun {t₁ t₂ name} h₁ h₂ =>
    h.thread (hmem.mp h₁).2 (hmem.mp h₂).2⟩
  · rw [hs.inchoate]
    simp only [hmem, exists_and_left]
    rcases eq_or_ne name classname with rfl | hne
    · have hmark : (w.setInchoate name false).inchoate name = false := Function.update_self ..
      simp [hmark]
    · have hmark : (w.setInchoate classname false).inchoate name = w.inchoate name :=
        Function.update_of_ne hne ..
      rw [hmark, h.recorded, and_iff_right hne]
  · rcases eq_or_ne t' t with rfl | hne
    · exact hnodup
    · exact (hs.names_of_ne hne).symm ▸ h.nodup t'

theorem step (h : MarksInv w) (hs : LookupStep w w' t) : MarksInv w' := by
  cases hs with
  | same hs => exact h.same hs
  | begins hnew hs => exact h.begins hnew hs
  | ends hcontrol hs => exact h.ends hcontrol hs

theorem start : MarksInv World.start where
  recorded name := by
    refine ⟨fun h => (by cases h), ?_⟩
    rintro ⟨t, h⟩
    exact absurd h List.not_mem_nil
  nodup _ := List.nodup_nil
  thread h := absurd h List.not_mem_nil

theorem exact (h : MarksInv w) : MarksExact w where
  recorded name := by
    rw [h.recorded]
    simp only [mem_pendingNames, IsLoading]
    exact exists_comm
  loader {cl cl' name} := by
    rintro ⟨t, hmem⟩ ⟨t', hmem'⟩
    obtain rfl := h.thread (mem_pendingNames.mpr ⟨cl, hmem⟩) (mem_pendingNames.mpr ⟨cl', hmem'⟩)
    exact congrArg Prod.fst (List.inj_on_of_nodup_map (h.nodup t) hmem hmem' rfl)

end MarksInv

end BJvm.Loading
