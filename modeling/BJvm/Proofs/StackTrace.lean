import BJvm.Natives.StackTrace
import BJvm.Proofs.Interning
import BJvm.Proofs.LineNumbers

/-!
# Stack traces

As long as there is memory, an element has of its strings what the table of interned strings has in
the end (`fillElements_complete`), so it is that of its frame if none of the names clash.  Where
memory runs out, the depth has been written already.
-/

namespace BJvm.StackTrace

open ClassFile Strings
open Function (update)

variable {obj j : Nat} {given : Memory} {interned interned' interned'' : InternedStrings}
  {frame : Frame} {frames stack : List Frame} {throwable : Throwable} {name : Name}
  {names names' : List Name} {r : Request} {s : NativeString} {e : Element}

/-! ### The construction -/

theorem dropWhile_eq_dropWhile_iff {α : Type*} {p q : α → Bool} : ∀ {l : List α},
    l.dropWhile p = l.dropWhile q ↔
      (∀ x ∈ l.takeWhile q, p x = true) ∧ ∀ x ∈ (l.dropWhile q).head?, ¬ p x = true
  | [] => by simp
  | a :: l => by
    have hne : ∀ f : α → Bool, a :: l ≠ l.dropWhile f := fun f h => by
      have := (List.dropWhile_suffix f (l := l)).length_le
      rw [← h, List.length_cons] at this
      omega
    rw [List.dropWhile_cons, List.dropWhile_cons, List.takeWhile_cons]
    by_cases hq : q a = true <;> by_cases hp : p a = true
    · simp only [hq, hp, if_true, List.forall_mem_cons, true_and]
      exact dropWhile_eq_dropWhile_iff
    · simp [hq, hp, hne]
    · simp [hq, hp, (hne p).symm]
    · simp [hq, hp]

theorem traced_eq_outside_iff : traced obj stack = outside obj stack ↔
    SkipsConstruction obj stack := by
  rw [SkipsConstruction, outside, ← dropWhile_eq_dropWhile_iff, traced]

/-- Both are what the stack ends with. -/
theorem traced_eq_outside_of_length (h : (traced obj stack).length = (outside obj stack).length) :
    traced obj stack = outside obj stack :=
  (List.suffix_of_suffix_length_le (List.dropWhile_suffix _) (List.dropWhile_suffix _)
    h.le).eq_of_length h

/-! ### Interning -/

/-- The table comes to have the strings of the names, and has no others that are new. -/
structure InternsAll (interned interned' : InternedStrings) (names : List Name) : Prop where
  keeps : ∀ bytes, ∀ s ∈ interned bytes, s ∈ interned' bytes
  new : ∀ bytes, ∀ s ∈ interned' bytes,
    s ∈ interned bytes ∨ ∃ name ∈ names, name.string.value = bytes ∧ name.string = s
  has : ∀ name ∈ names, (interned' name.string.value).isSome

theorem InternsAll.refl : InternsAll interned interned [] :=
  ⟨fun _ _ h => h, fun _ _ h => .inl h, fun _ h => absurd h List.not_mem_nil⟩

theorem InternsAll.append (h : InternsAll interned interned' names)
    (h' : InternsAll interned' interned'' names') :
    InternsAll interned interned'' (names ++ names') := by
  refine ⟨fun bytes s hs => h'.keeps bytes s (h.keeps bytes s hs), fun bytes s hs => ?_,
    fun name hname => ?_⟩
  · rcases h'.new bytes s hs with hs | ⟨name, hname, heq⟩
    · rcases h.new bytes s hs with hs | ⟨name, hname, heq⟩
      · exact .inl hs
      · exact .inr ⟨name, List.mem_append_left _ hname, heq⟩
    · exact .inr ⟨name, List.mem_append_right _ hname, heq⟩
  · rcases List.mem_append.1 hname with hname | hname
    · obtain ⟨s, hs⟩ := Option.isSome_iff_exists.1 (h.has name hname)
      exact Option.isSome_iff_exists.2 ⟨s, h'.keeps _ s hs⟩
    · exact h'.has name hname

theorem makeJString_eq_some (h : makeJString given r name interned = some (s, interned')) :
    InternsAll interned interned' [name] ∧ interned' name.string.value = some s := by
  rw [makeJString] at h
  split_ifs at h
  rcases hfound : interned name.string.value with _ | t <;> rw [hfound] at h <;>
    simp only [Option.some.injEq, Prod.mk.injEq] at h <;> obtain ⟨rfl, rfl⟩ := h
  · refine ⟨⟨fun bytes t ht => ?_, fun bytes t ht => ?_, fun n hn => ?_⟩, Function.update_self ..⟩
    · have hne : bytes ≠ name.string.value := by
        rintro rfl
        rw [hfound] at ht
        cases ht
      rwa [Function.update_of_ne hne]
    · by_cases heq : bytes = name.string.value
      · subst heq
        rw [Function.update_self] at ht
        exact .inr ⟨name, List.mem_singleton_self name, rfl, Option.some.inj ht⟩
      · rw [Function.update_of_ne heq] at ht
        exact .inl ht
    · rw [List.mem_singleton.1 hn, Function.update_self]
      rfl
  · refine ⟨⟨fun _ _ ht => ht, fun _ _ ht => .inl ht, fun n hn => ?_⟩, hfound⟩
    rw [List.mem_singleton.1 hn, hfound]
    rfl

theorem makeJString_isSome_iff : (makeJString given r name interned).isSome ↔ given r := by
  rw [makeJString]
  split_ifs with hr
  · rcases interned name.string.value with _ | t <;> simp [hr]
  · simp [hr]

/-- What comes back is right for all of the names if and only if none of them clash. -/
theorem InternsAll.right_iff (h : InternsAll interned interned' names) :
    (∀ name ∈ names, ∀ s ∈ interned' name.string.value, s.units = name.units) ↔
      Unclashing interned names := by
  constructor
  · refine fun hright name hname => ⟨fun s hs => hright name hname s (h.keeps _ s hs),
      fun name' hname' heq => ?_⟩
    -- both get the same string
    obtain ⟨s, hs⟩ := Option.isSome_iff_exists.1 (h.has name hname)
    rw [← hright name hname s hs, ← hright name' hname' s (heq ▸ hs)]
  · intro hun name hname s hs
    rcases h.new _ s hs with hs | ⟨name', hname', heq, rfl⟩
    · exact (hun name hname).1 s hs
    · exact (hun name hname).2 name' hname' heq

/-! ### Elements -/

/-- The element that is filled for the frame, if the table comes to be this one. -/
structure ElementOf (interned : InternedStrings) (frame : Frame) (e : Element) : Prop where
  declaringClassObject : e.declaringClassObject = frame.method.myClass.mirror
  declaringClass : interned frame.method.myClass.name.string.value = some e.declaringClass
  methodName : interned frame.method.name.string.value = some e.methodName
  fileName : ∃ file, e.fileName = some file ∧
    interned (frame.method.myClass.sourceFile.getD frame.method.name).string.value = some file
  lineNumber : e.lineNumber = if frame.isNative then none
    else getLineNumber frame.method.lineNumberTable frame.method.code frame.programCounter

theorem ElementOf.mono (h : ElementOf interned frame e)
    (hall : InternsAll interned interned' names) : ElementOf interned' frame e := by
  obtain ⟨file, hfile, hs⟩ := h.fileName
  exact ⟨h.declaringClassObject, hall.keeps _ _ h.declaringClass, hall.keeps _ _ h.methodName,
    ⟨file, hfile, hall.keeps _ _ hs⟩, h.lineNumber⟩

theorem fillElement_eq_some (h : fillElement given j frame interned = some (e, interned')) :
    InternsAll interned interned' frame.names ∧ ElementOf interned' frame e := by
  simp only [fillElement, Option.bind_eq_bind, Option.bind_eq_some_iff, Prod.exists,
    Option.some.injEq, Prod.mk.injEq] at h
  obtain ⟨-, -, declaringClass, it1, h1, methodName, it2, h2, o, it3, h3, rfl, rfl⟩ := h
  obtain ⟨hall1, hs1⟩ := makeJString_eq_some h1
  obtain ⟨hall2, hs2⟩ := makeJString_eq_some h2
  rw [Frame.names]
  rcases hfile : frame.method.myClass.sourceFile with _ | sf <;> rw [hfile] at h3
  · obtain ⟨rfl, rfl⟩ := Prod.mk.inj (Option.some.inj h3)
    refine ⟨hall1.append hall2, rfl, hall2.keeps _ _ hs1, hs2, ⟨_, rfl, ?_⟩, rfl⟩
    rw [hfile]
    exact hs2
  · obtain ⟨hall3, hs3⟩ := makeJString_eq_some h3
    refine ⟨(hall1.append hall2).append hall3, rfl, hall3.keeps _ _ (hall2.keeps _ _ hs1),
      hall3.keeps _ _ hs2, ⟨_, rfl, ?_⟩, rfl⟩
    rw [hfile]
    exact hs3

theorem isSome_bind_iff {α β : Type} {x : Option α} {f : α → Option β} {p q : Prop}
    (hx : x.isSome ↔ p) (hf : ∀ a, (f a).isSome ↔ q) : (x.bind f).isSome ↔ p ∧ q := by
  cases x <;> simp_all

theorem fillElement_isSome_iff : (fillElement given j frame interned).isSome ↔
    ∀ r ∈ (elementRequests j frame).tail, given r := by
  have hguard : (guard (given (.mirror j)) : Option Unit).isSome ↔ given (.mirror j) := by
    cases given (.mirror j) <;> simp [guard]
  have hiff : (fillElement given j frame interned).isSome ↔ given (.mirror j) ∧
      given (.declaringClass j) ∧ given (.methodName j) ∧
        (frame.method.myClass.sourceFile.isSome → given (.fileName j)) ∧ True := by
    refine isSome_bind_iff hguard fun _ => isSome_bind_iff makeJString_isSome_iff fun _ =>
      isSome_bind_iff makeJString_isSome_iff fun _ => isSome_bind_iff ?_ fun _ => by simp
    rcases frame.method.myClass.sourceFile with _ | sf
    · simp
    · simp [makeJString_isSome_iff]
  rw [hiff, elementRequests]
  rcases frame.method.myClass.sourceFile with _ | sf <;> simp

theorem exists_fillElement (interned : InternedStrings)
    (h : ∀ r ∈ (elementRequests j frame).tail, given r) :
    ∃ e interned', fillElement given j frame interned = some (e, interned') :=
  Prod.exists.1 (Option.isSome_iff_exists.1 (fillElement_isSome_iff.2 h))

/-! ### The loop -/

theorem elementRequests_eq : elementRequests j frame =
    .element j :: (elementRequests j frame).tail := rfl

theorem ne_element_of_mem_tail (h : r ∈ (elementRequests j frame).tail) (i : Nat) :
    r ≠ .element i := by
  rintro rfl
  rw [elementRequests] at h
  rcases frame.method.myClass.sourceFile with _ | sf <;> simp at h

/-- With memory for all of it, the elements are those of the frames. -/
theorem fillElements_complete : ∀ (frames : List Frame) {j : Nat} (interned : InternedStrings),
    (∀ r ∈ frameRequests j frames, given r) → ∃ elements interned',
      fillElements given j frames interned = (elements.map some, .complete) ∧
        InternsAll interned interned' (frames.flatMap Frame.names) ∧
        List.Forall₂ (ElementOf interned') frames elements
  | [], _, interned, _ => ⟨[], interned, rfl, .refl, .nil⟩
  | frame :: frames, _, interned, h => by
    rw [frameRequests, List.forall_mem_append, elementRequests_eq, List.forall_mem_cons] at h
    obtain ⟨⟨helem, htail⟩, hrest⟩ := h
    obtain ⟨e, it, hfill⟩ := exists_fillElement interned htail
    obtain ⟨hall, hof⟩ := fillElement_eq_some hfill
    obtain ⟨elements, it', hloop, hall', hof'⟩ := fillElements_complete frames it hrest
    refine ⟨e :: elements, it', ?_, ?_, .cons (hof.mono hall') hof'⟩
    · rw [fillElements, if_pos helem, hfill]
      simp only [hloop, List.map_cons]
    · rw [List.flatMap_cons]
      exact hall.append hall'

/-- Where the loop goes when there is no memory for the request. -/
def Request.ending : Request → Ending
  | .element _ => .cleanup
  | _ => .oom

/-- Where memory runs out, the array is not full. -/
theorem fillElements_stopped : ∀ (frames : List Frame) {j : Nat} (interned : InternedStrings),
    (frameRequests j frames).find? (!given ·) = some r →
      ∃ slots, fillElements given j frames interned = (slots, r.ending) ∧ none ∈ slots
  | [], _, _, h => by cases h
  | frame :: frames, j, interned, h => by
    have hnone : none ∈ List.replicate (frames.length + 1) (none : Option Element) :=
      List.mem_replicate.2 ⟨by omega, rfl⟩
    rw [frameRequests, elementRequests_eq, List.cons_append, List.find?_cons] at h
    by_cases helem : given (.element j) = true
    · simp only [helem, Bool.not_true] at h
      rw [fillElements, if_pos helem]
      rw [List.find?_append] at h
      rcases htail : (elementRequests j frame).tail.find? (!given ·) with _ | r'
      · have hgiven : ∀ r ∈ (elementRequests j frame).tail, given r := by
          simpa using htail
        obtain ⟨e, it, hfill⟩ := exists_fillElement interned hgiven
        rw [htail, Option.none_or] at h
        obtain ⟨slots, hloop, hmem⟩ := fillElements_stopped frames it h
        exact ⟨some e :: slots, by simp only [hfill, hloop], List.mem_cons_of_mem _ hmem⟩
      · rw [htail, Option.some_or] at h
        obtain rfl := Option.some.inj h
        have hmem := List.mem_of_find?_eq_some htail
        have hfill : fillElement given j frame interned = none := by
          rw [← Option.not_isSome_iff_eq_none, fillElement_isSome_iff]
          intro hall
          simpa [hall r' hmem] using List.find?_some htail
        have hend : r'.ending = .oom := by
          cases r' with
          | element i => exact absurd rfl (ne_element_of_mem_tail hmem i)
          | _ => rfl
        exact ⟨_, by rw [hfill, hend], hnone⟩
    · simp only [helem, Bool.not_false, Option.some.injEq] at h
      subst h
      rw [fillElements, if_neg helem]
      exact ⟨_, rfl, hnone⟩

/-! ### The trace -/

theorem lineOf_iff : LineOf frame (if frame.isNative then none
    else getLineNumber frame.method.lineNumberTable frame.method.code frame.programCounter) ↔
      frame.LineFound := by
  rw [LineOf, Frame.LineFound]
  by_cases hnative : frame.isNative = true
  · simp [hnative]
  · rw [if_neg hnative, if_neg hnative]
    rcases frame.method.lineNumberTable with _ | entries
    · simp [getLineNumber]
    · simp [hnative, specifiedLine_iff_findsLine]

/-- What is right of an element. -/
theorem ElementOf.describes_iff (h : ElementOf interned frame e) : Describes frame e ↔
    frame.method.myClass.sourceFile.isSome ∧
      (∀ name ∈ frame.names, ∀ s ∈ interned name.string.value, s.units = name.units) ∧
      frame.LineFound := by
  obtain ⟨file, hfile, hs⟩ := h.fileName
  have hline : LineOf frame e.lineNumber ↔ frame.LineFound := by
    rw [h.lineNumber, lineOf_iff]
  have hdescribes : Describes frame e ↔
      e.declaringClass.units = frame.method.myClass.name.units ∧
        e.methodName.units = frame.method.name.units ∧
        e.fileName.map NativeString.units = frame.method.myClass.sourceFile.map Name.units ∧
        LineOf frame e.lineNumber :=
    ⟨fun hd => ⟨hd.2, hd.3, hd.4, hd.5⟩, fun hd => ⟨h.1, hd.1, hd.2.1, hd.2.2.1, hd.2.2.2⟩⟩
  rw [hdescribes, hline, hfile, Frame.names]
  rcases hsf : frame.method.myClass.sourceFile with _ | sf
  · simp
  · rw [hsf] at hs
    simp [h.declaringClass, h.methodName, show interned sf.string.value = some file from hs,
      and_assoc]

theorem forall₂_iff {α β : Type} {P Q : α → β → Prop} {p : α → Prop} {as : List α} {bs : List β}
    (h : List.Forall₂ Q as bs) (hiff : ∀ a b, Q a b → (P a b ↔ p a)) :
    List.Forall₂ P as bs ↔ ∀ a ∈ as, p a := by
  induction h with
  | nil => simp
  | cons hq _ ih => rw [List.forall₂_cons, List.forall_mem_cons, hiff _ _ hq, ih]

/-- With memory, the trace is the right one if and only if nothing else keeps the code from it. -/
theorem recorded_iff (hgiven : ∀ r ∈ requests obj stack, given r) :
    (∃ elements, (fillInStackTrace obj given interned stack throwable).1.Holds elements ∧
      List.Forall₂ Describes (outside obj stack) elements) ↔ Recordable obj interned stack := by
  rw [requests, List.forall_mem_cons] at hgiven
  obtain ⟨elements, final, hloop, hall, hof⟩ := fillElements_complete (traced obj stack) interned
    hgiven.2
  have hdescribe : List.Forall₂ Describes (traced obj stack) elements ↔
      (∀ frame ∈ traced obj stack, frame.method.myClass.sourceFile.isSome) ∧
        Unclashing interned ((traced obj stack).flatMap Frame.names) ∧
        ∀ frame ∈ traced obj stack, frame.LineFound := by
    rw [forall₂_iff hof fun _ _ h => h.describes_iff, ← hall.right_iff, List.forall_mem_flatMap]
    simp only [forall_and]
  have hafter : (fillInStackTrace obj given interned stack throwable).1 =
      { backtrace := some (elements.map some), depth := (traced obj stack).length } := by
    simp only [fillInStackTrace, hgiven.1, if_true, hloop]
  have hholds : ∀ es, (fillInStackTrace obj given interned stack throwable).1.Holds es ↔
      es = elements := by
    intro es
    rw [hafter, Throwable.Holds, Option.some.injEq,
      (List.map_injective_iff.2 (Option.some_injective Element)).eq_iff, hof.length_eq]
    exact ⟨fun h => h.1.symm, fun h => by simp [h]⟩
  simp only [hholds, exists_eq_left]
  constructor
  · intro h
    have heq : traced obj stack = outside obj stack :=
      traced_eq_outside_of_length (hof.length_eq.trans h.length_eq.symm)
    rw [← heq] at h
    obtain ⟨hsource, hnames, hlines⟩ := hdescribe.1 h
    exact ⟨traced_eq_outside_iff.1 heq, heq ▸ hsource, heq ▸ hnames, heq ▸ hlines⟩
  · intro h
    have heq := traced_eq_outside_iff.2 h.skips
    rw [← heq]
    exact hdescribe.2 ⟨heq ▸ h.sourceFile, heq ▸ h.names, heq ▸ h.lines⟩

/-- A write to the depth keeps the throwable consistent if it changes nothing. -/
theorem consistent_depth_iff (h : throwable.Consistent) (n : Nat) :
    ({ throwable with depth := n } : Throwable).Consistent ↔ throwable.depth = n := by
  rcases h with ⟨hnone, hdepth⟩ | ⟨elements, hsome, hdepth⟩
  · simp [Throwable.Consistent, Throwable.Holds, hnone, hdepth, eq_comm]
  · simp only [Throwable.Consistent, Throwable.Holds, hsome, reduceCtorEq, false_and, false_or,
      Option.some.injEq, (List.map_injective_iff.2 (Option.some_injective Element)).eq_iff,
      exists_eq_left', hdepth, eq_comm]

theorem not_consistent_of_none {slots : List (Option Element)} {n : Nat} (h : none ∈ slots) :
    ¬ ({ backtrace := some slots, depth := n } : Throwable).Consistent := by
  rintro (⟨hnone, -⟩ | ⟨elements, hsome, -⟩)
  · cases hnone
  · obtain rfl := Option.some.inj hsome
    simp at h

/-- The call does what it is to if and only if the trace can be recorded, or memory runs out where
that does no harm. -/
theorem fillInStackTrace_right_iff (obj : Nat) (given : Memory) (interned : InternedStrings)
    (stack : List Frame) (throwable : Throwable) (h : throwable.Consistent) :
    Right obj given interned stack throwable ↔ Sound obj given interned stack throwable := by
  rw [Right, Sound]
  rcases hfind : (requests obj stack).find? (!given ·) with _ | r
  · have hgiven : ∀ r ∈ requests obj stack, given r := by simpa using hfind
    rw [if_pos hgiven]
    exact recorded_iff hgiven
  · have hmem := List.mem_of_find?_eq_some hfind
    have hr : given r = false := by simpa using List.find?_some hfind
    rw [if_neg fun hgiven => by simp [hgiven r hmem] at hr]
    rw [requests, List.find?_cons] at hfind
    by_cases harray : given .stackTrace = true
    · simp only [harray, Bool.not_true] at hfind
      obtain ⟨slots, hloop, hnone⟩ := fillElements_stopped (traced obj stack) interned hfind
      cases r with
      | stackTrace => simp [harray] at hr
      | element i =>
        simp only [fillInStackTrace, harray, if_true, hloop, Request.ending, iff_false]
        exact not_consistent_of_none hnone
      | mirror i | declaringClass i | methodName i | fileName i =>
        simp only [fillInStackTrace, harray, if_true, hloop, Request.ending]
        exact consistent_depth_iff h _
    · simp only [harray, Bool.not_false, Option.some.injEq] at hfind
      subst hfind
      simpa [fillInStackTrace, harray] using h

/-- `M.main`, which has thrown, in the source file `M.java`. -/
def mainFrame : Frame where
  isNative := false
  method := {
    name := ⟨[109, 97, 105, 110], by decide⟩
    myClass := {
      name := ⟨[77], by decide⟩
      mirror := 2
      sourceFile := some ⟨[77, 46, 106, 97, 118, 97], by decide⟩ }
    code := [{ kind := .return_ }]
    lineNumberTable := some [(0, 4)] }

/-- The constructor of the exception, and the native method that it calls. -/
def constructionFrames : List Frame :=
  let class_ : ClassDesc := { name := ⟨[69], by decide⟩, mirror := 3, sourceFile := none }
  [{ isNative := true
     method := {
      name := ⟨[102, 105, 108, 108, 73, 110, 83, 116, 97, 99, 107, 84, 114, 97, 99, 101], by decide⟩
      myClass := class_ }
     receiver := some 1 },
   { isNative := false
     method := { name := ⟨[60, 105, 110, 105, 116, 62], by decide⟩, myClass := class_ }
     locals := [1]
     receiver := some 1 }]

theorem fillInStackTrace_right_main :
    Right 1 (fun _ => true) (fun _ => none) (constructionFrames ++ [mainFrame]) {} := by
  refine (fillInStackTrace_right_iff _ _ _ _ _ (.inl ⟨rfl, rfl⟩)).2 ?_
  have houtside : outside 1 (constructionFrames ++ [mainFrame]) = [mainFrame] := by rfl
  have hrecordable : Recordable 1 (fun _ => none) (constructionFrames ++ [mainFrame]) := by
    refine ⟨⟨by decide, by decide⟩, ?_, ?_, ?_⟩ <;> rw [houtside]
    · decide
    · unfold Unclashing
      decide
    · rintro frame hframe - entries hentries insn -
      obtain rfl := List.mem_singleton.1 hframe
      obtain rfl := Option.some.inj hentries
      exact Searchable.findsLine (searchable_of_increasing (List.pairwise_singleton _ 0))
  exact hrecordable

/-- A class without a source file. -/
def unsourcedFrame : Frame where
  isNative := false
  method := {
    name := ⟨[109, 97, 105, 110], by decide⟩
    myClass := { name := ⟨[77], by decide⟩, mirror := 2, sourceFile := none } }

/-- The name of the method is left for that of the file. -/
theorem fillInStackTrace_wrong : ({} : Throwable).Consistent ∧
    ¬ Right 1 (fun _ => true) (fun _ => none) [unsourcedFrame] {} := by
  refine ⟨.inl ⟨rfl, rfl⟩, fun h => ?_⟩
  rw [Right, if_pos (by decide)] at h
  obtain ⟨elements, ⟨hbacktrace, -⟩, hall⟩ := h
  obtain ⟨e, _, hdescribes, -, rfl⟩ := List.forall₂_cons_left_iff.1
    (show List.Forall₂ Describes [unsourcedFrame] elements from hall)
  have hfile : e.fileName = none := Option.map_eq_none_iff.1 hdescribes.fileName
  obtain ⟨he, -⟩ := List.cons.inj (Option.some.inj hbacktrace)
  rw [← Option.some.inj he] at hfile
  cases hfile

/-! ### The table of a heap -/

section Heap

variable {heap : StringHeap} {log : List Interned} {m : Finmap fun _ : Adt.Key => Object}

theorem contents_eq_some (h : Inv heap log m) {bytes : List UInt8} : contents heap bytes = some s ↔
    ∃ e ∈ log, e.argument.value = bytes ∧ heap.string e.result = some s := by
  rw [contents, keyOf_length, Adt.StringHashTable.lookup_spec h.table]
  constructor
  · rcases hm : m.lookup bytes with _ | o
    · intro hs
      cases hs
    · intro hs
      obtain ⟨e, he, -, rfl⟩ := h.object bytes o hm
      rw [h.logged e he, Option.some.injEq] at hm
      exact ⟨e, he, rfl, hm ▸ hs⟩
  · rintro ⟨e, he, rfl, hs⟩
    rw [h.logged e he]
    exact hs

/-- With memory, the strings come back that a heap has for them. -/
theorem makeJString_contents (h : Inv heap log m) (hr : given r) (name : Name) :
    ∃ heap' o s m', heap.makeJString name.string true = some (heap', o) ∧
      Inv heap' (log ++ [{ argument := name.string, result := o }]) m' ∧
      heap'.string o = some s ∧
      makeJString given r name (contents heap) = some (s, contents heap') := by
  obtain ⟨st, m', hmap, hinv, hstrings, -⟩ := h.makeJString name.string true
  obtain ⟨⟨heap', o⟩, hmade, rfl⟩ := Option.map_eq_some_iff.1 hmap
  replace hinv : Inv heap' (log ++ [{ argument := name.string, result := o }]) m' := hinv
  replace hstrings : heap'.strings = heap.strings ++ [name.string] := hstrings
  have hstay : ∀ {e : Interned}, e ∈ log → heap'.string e.result = heap.string e.result := by
    intro e he
    obtain ⟨_, -, hs, -⟩ := h.object _ _ (h.logged e he)
    have halloc : heap'.string e.result = (heap.alloc name.string).1.string e.result := by
      rw [StringHeap.string, hstrings]
      rfl
    rw [halloc, string_alloc hs, hs]
  have hnew := hinv.logged _ (List.mem_append_right log (List.mem_singleton_self _))
  obtain ⟨first, hfirst, hs, hvalue⟩ := hinv.object _ _ hnew
  have hcontents : ∀ {bytes t}, contents heap' bytes = some t ↔
      contents heap bytes = some t ∨ name.string.value = bytes ∧ first.argument = t := by
    intro bytes t
    rw [contents_eq_some hinv, contents_eq_some h]
    simp only [List.mem_append, List.mem_singleton, or_and_right, exists_or, exists_eq_left, hs,
      Option.some.injEq]
    refine or_congr_left (exists_congr fun e => and_congr_right fun he => ?_)
    rw [hstay he]
  refine ⟨heap', o, first.argument, m', hmade, hinv, hs, ?_⟩
  rw [makeJString, if_pos hr]
  rcases hfound : contents heap name.string.value with _ | t
  · -- the string that comes back is the one just made
    have harg : first.argument = name.string := by
      rcases List.mem_append.1 hfirst with hlog | hlast
      · have hres : first.result = o := by
          have := hinv.logged first (List.mem_append_left _ hlog)
          rw [hvalue] at this
          exact Option.some.inj (this.symm.trans hnew)
        have := (contents_eq_some h).2 ⟨first, hlog, hvalue, (hstay hlog).symm.trans (hres ▸ hs)⟩
        rw [hfound] at this
        cases this
      · rw [List.mem_singleton.1 hlast]
    simp only [Option.some.injEq, Prod.mk.injEq, harg, true_and]
    funext bytes
    refine Option.ext fun t => ?_
    by_cases hb : bytes = name.string.value
    · subst hb
      simp [hcontents, hfound, harg]
    · simp [hcontents, Function.update_of_ne hb, Ne.symm hb]
  · have hsame : first.argument = t := by
      have := hcontents.2 (.inr ⟨rfl, rfl⟩)
      rw [hcontents.2 (.inl hfound)] at this
      exact (Option.some.inj this).symm
    simp only [Option.some.injEq, Prod.mk.injEq, hsame, true_and]
    funext bytes
    refine Option.ext fun u => ?_
    rw [hcontents, hsame]
    refine ⟨.inl, ?_⟩
    rintro (hu | ⟨rfl, rfl⟩)
    · exact hu
    · exact hfound

end Heap

end BJvm.StackTrace
