import BJvm.Interpreter.Unwinding
import BJvm.Proofs.Monitors

/-!
# Where an exception goes

The search of a frame finds the first entry that catches the exception, unless that entry's catch
type fails to load (`search_of_consult`, `search_of_not_consult`); leaving a frame releases its
monitor, unless the frame does not find it (`onFrameEnd_of_holds`, `onFrameEnd_of_not`).  The
condition goes through the frames as the code does.
-/

namespace BJvm.Unwinding

open ClassFile Threads Function

variable {env : Env} {t : ThreadId} {f : Frame} {e o : Object} {st st' : State} {w w' : World}
  {frames below : List Frame} {ref : ClassInfoRef} {c : Class}

/-! ### Monitors -/

theorem holdCount_setMonitor {data : MonitorData} (o' : Object) :
    (w.setMonitor o data).currentThreadHoldCount t o' =
      if o' = o then if data.tid = some t then data.holdCount else 0
      else w.currentThreadHoldCount t o' := by
  unfold World.currentThreadHoldCount World.setMonitor
  by_cases h : o' = o
  · subst h
    simp [HeaderWord.inspectMonitor]
  · simp [h]

/-- A release takes one hold from the object, and goes through when there is one. -/
theorem monitorRelease_cases :
    (w.currentThreadHoldCount t o = 0 ∧ w.monitorRelease t o = none) ∨
    (0 < w.currentThreadHoldCount t o ∧ ∃ w', w.monitorRelease t o = some w' ∧ ∀ o',
      w.currentThreadHoldCount t o' = w'.currentThreadHoldCount t o' + if o' = o then 1 else 0) := by
  have hcount := currentThreadHoldCount_eq (w := w) (t := t) (o := o)
  unfold World.monitorRelease
  rcases hw : w.header o with word | data
  · rw [hw] at hcount
    exact .inl ⟨hcount, rfl⟩
  · rw [hw] at hcount
    change _ = if data.tid = some t then data.holdCount else 0 at hcount
    dsimp only [HeaderWord.inspectMonitor]
    by_cases htid : data.tid = some t
    · rw [if_pos htid] at hcount
      rcases Nat.eq_zero_or_pos data.holdCount with h0 | hpos
      · exact .inl ⟨hcount.trans h0, if_pos (.inr h0)⟩
      · refine .inr ⟨by omega, ?_⟩
        rw [if_neg (by rw [not_or, not_not]; exact ⟨htid, by omega⟩)]
        by_cases h1 : data.holdCount - 1 = 0
        · rw [if_pos h1]
          refine ⟨_, rfl, fun o' => ?_⟩
          show _ = (w.setMonitor o _).currentThreadHoldCount t o' + _
          rw [holdCount_setMonitor]
          by_cases ho : o' = o
          · subst ho
            simp
            omega
          · simp [ho]
        · rw [if_neg h1]
          refine ⟨_, rfl, fun o' => ?_⟩
          show _ = (w.setMonitor o _).currentThreadHoldCount t o' + _
          rw [holdCount_setMonitor]
          by_cases ho : o' = o
          · subst ho
            simp [htid]
            omega
          · simp [ho]
    · rw [if_neg htid] at hcount
      exact .inl ⟨hcount, if_pos (.inl htid)⟩

theorem acquireLoop_holdCount {a : Addr}
    (hfree : (w.header o).owner = none ∨ (w.header o).owner = some t)
    (hbound : w.currentThreadHoldCount t o + 1 < uint32Size) :
    (w.acquireLoop t o a).currentThreadHoldCount t o = w.currentThreadHoldCount t o + 1 := by
  rw [currentThreadHoldCount_eq (w := w)] at hbound ⊢
  rcases hfree with hnone | hown
  · have htid : (w.header o).inflate.tid = none := (owner_eq _).symm.trans hnone
    unfold World.acquireLoop
    dsimp only
    rw [hnone, htid]
    show (w.setMonitor o _).currentThreadHoldCount t o = _
    rw [holdCount_setMonitor]
    simp
  · have htid : (w.header o).inflate.tid = some t := (owner_eq _).symm.trans hown
    rw [if_pos hown] at hbound ⊢
    unfold World.acquireLoop
    dsimp only
    rw [htid]
    dsimp only
    rw [if_pos rfl]
    show (w.setMonitor o _).currentThreadHoldCount t o = _
    rw [holdCount_setMonitor, if_pos rfl, if_pos rfl]
    exact Nat.mod_eq_of_lt hbound

theorem monitorAcquire_holdCount {a : Addr}
    (hfree : (w.header o).owner = none ∨ (w.header o).owner = some t)
    (hbound : w.currentThreadHoldCount t o + 1 < uint32Size) :
    (w.monitorAcquire t o false a).currentThreadHoldCount t o =
      w.currentThreadHoldCount t o + 1 := by
  unfold World.monitorAcquire
  rcases hw : w.header o with word | data
  · dsimp only
    have hcount : (w.setMonitor o (HeaderWord.markWord word).inflate).currentThreadHoldCount t o =
        w.currentThreadHoldCount t o := by
      rw [holdCount_setMonitor, if_pos rfl, World.currentThreadHoldCount, hw]
      rfl
    have hmonitor : (w.setMonitor o (HeaderWord.markWord word).inflate).header o =
        .expanded (HeaderWord.markWord word).inflate := update_self ..
    rw [if_neg (by simp), ← hcount]
    refine acquireLoop_holdCount (.inl ?_) (by rw [hcount]; exact hbound)
    rw [hmonitor]
    rfl
  · exact acquireLoop_holdCount hfree hbound

theorem monitorRelease_of_holds (h : 0 < w.currentThreadHoldCount t o) :
    ∃ w', w.monitorRelease t o = some w' ∧ ∀ o',
      w.currentThreadHoldCount t o' = w'.currentThreadHoldCount t o' + if o' = o then 1 else 0 := by
  rcases monitorRelease_cases (w := w) (t := t) (o := o) with ⟨h0, -⟩ | ⟨-, h'⟩
  · omega
  · exact h'

theorem getSyncObject_of_monitor (h : f.monitor = none) : f.getSyncObject = 0 := by
  unfold Frame.monitor at h
  unfold Frame.getSyncObject
  split_ifs at h ⊢; simp_all

theorem monitor_ne (h : f.monitor = some o) : o ≠ 0 := by
  unfold Frame.monitor at h
  split_ifs at h with hsync hstatic
  · cases h
    exact f.mirror_ne
  · cases h
    exact f.receiver_ne

/-- A synchronized instance method that is native does not find its monitor. -/
theorem getSyncObject_ne_of_native (hn : f.isNative = true) (hs : f.isStatic = false)
    (h : f.monitor = some o) : f.getSyncObject ≠ o := by
  unfold Frame.monitor at h
  unfold Frame.getSyncObject
  split_ifs at h ⊢ with hsync hstatic
  · simp [hs] at hstatic
  · cases h
    exact f.handle_ne hn hs

/-- A frame that is not left well shows it in what becomes of its monitor. -/
theorem onFrameEnd_of_not
    (h : ¬ (f.getSyncObject = o ∧ 0 < st.world.currentThreadHoldCount t o)) :
    (onFrameEnd env t f st).1 ≠ .released o := by
  unfold onFrameEnd
  split_ifs with h0
  · simp
  · rcases hr : st.world.monitorRelease t f.getSyncObject with _ | w'
    · simp
    · intro heq
      have hsync : f.getSyncObject = o := by simpa using heq
      rcases monitorRelease_cases (w := st.world) (t := t) (o := f.getSyncObject) with
        ⟨-, hnone⟩ | ⟨hpos, -⟩
      · rw [hr] at hnone
        cases hnone
      · exact h ⟨hsync, hsync ▸ hpos⟩

theorem onFrameEnd_of_none (h : f.monitor = none) : onFrameEnd env t f st = (.nothing, st) := by
  unfold onFrameEnd
  rw [if_pos (getSyncObject_of_monitor h)]

theorem onFrameEnd_of_holds (env : Env) (ho : f.monitor = some o) (hsync : f.getSyncObject = o)
    (hpos : 0 < st.world.currentThreadHoldCount t o) :
    onFrameEnd env t f st = (.released o, st.release t o) ∧ ∀ o',
      st.world.currentThreadHoldCount t o' =
        (st.release t o).world.currentThreadHoldCount t o' + if o' = o then 1 else 0 := by
  obtain ⟨w', hr, hholds⟩ := monitorRelease_of_holds hpos
  have hrelease : st.release t o = { st with world := w' } := by
    unfold State.release
    rw [hr]
    rfl
  unfold onFrameEnd
  rw [hsync, if_neg (monitor_ne ho), hr, hrelease]
  exact ⟨rfl, hholds⟩

/-! ### Loading a catch type -/

/-- What is kept while a class is loaded: the monitors, and that the constant pools are right. -/
structure Kept (env : Env) (t : ThreadId) (st st' : State) : Prop where
  named : st.Named env → st'.Named env
  holds : ∀ o, st.world.currentThreadHoldCount t o = st'.world.currentThreadHoldCount t o

theorem Kept.refl : Kept env t st st := ⟨id, fun _ => rfl⟩

theorem Kept.trans {st'' : State} (h : Kept env t st st') (h' : Kept env t st' st'') :
    Kept env t st st'' :=
  ⟨h'.named ∘ h.named, fun o => (h.holds o).trans (h'.holds o)⟩

theorem named_update {info : CpClassInfo} (h : st.Named env)
    (hc : ∀ c, info.classdesc = some c → env.named ref = some c) :
    { st with info := update st.info ref info }.Named env := by
  intro ref' c
  by_cases heq : ref' = ref
  · subst heq
    simpa using hc c
  · simpa [heq] using h ref' c

theorem resolveClass_kept (henv : env.Lawful t) (ref : ClassInfoRef) (st : State) :
    Kept env t st (resolveClass env ref st).2 := by
  have hlookup : Kept env t st (env.lookupClass ref st).2 :=
    ⟨henv.lookup_named ref st, fun o => (henv.lookup_holds ref st o).symm⟩
  unfold resolveClass
  split
  · exact .refl
  · exact ⟨id, fun _ => rfl⟩
  · have hc := henv.lookup ref st
    split
    · rename_i c st' hst
      rw [hst] at hlookup hc
      refine ⟨fun h => named_update (hlookup.named h) fun c' h' => ?_, hlookup.holds⟩
      cases h'
      exact hc c rfl
    · rename_i st' hst
      rw [hst] at hlookup
      exact ⟨fun h => named_update (hlookup.named h) (by rintro c' ⟨⟩), hlookup.holds⟩

theorem loadCatchType_kept (henv : env.Lawful t) (ref : ClassInfoRef) (st : State) :
    Kept env t st (loadCatchType env ref st).2 := by
  have hresolve := resolveClass_kept henv ref st
  unfold loadCatchType
  split
  · rename_i st' hst
    rw [hst] at hresolve
    exact hresolve
  · rename_i st' hst
    rw [hst] at hresolve
    split
    · exact hresolve
    · rename_i c hc
      have hlink : Kept env t st' (env.linkClass c st').2 :=
        ⟨henv.link_named c st', fun o => (henv.link_holds c st' o).symm⟩
      split
      all_goals
        rename_i st'' hst''
        rw [hst''] at hlink
        exact hresolve.trans hlink

/-- The class that a catch type is loaded to is the one it names. -/
theorem named_of_loadCatchType (henv : env.Lawful t) (hst : st.Named env) (ref : ClassInfoRef)
    (c : Class) (h : (loadCatchType env ref st).1 = some c) : env.named ref = some c := by
  have hresolve := (resolveClass_kept henv ref st).named hst
  unfold loadCatchType at h
  split at h
  · cases h
  · rename_i st' hst'
    rw [hst'] at hresolve
    split at h
    · cases h
    · rename_i c' hc'
      have hlink := henv.link_named c' st' hresolve
      split at h
      · cases h
      · rename_i st'' hst''
        rw [hst''] at hlink
        exact hlink ref c h

/-! ### The search of a frame -/

theorem covers_of_catches {ent : ParsedException} (h : f.catches env e ent = true) :
    ent.startInsn ≤ f.programCounter ∧ f.programCounter < ent.endInsn := by
  unfold Frame.catches at h
  simp only [Bool.and_eq_true, decide_eq_true_eq] at h
  exact h.1

theorem catches_none {ent : ParsedException}
    (hpc : ent.startInsn ≤ f.programCounter ∧ f.programCounter < ent.endInsn)
    (h : ent.catchType = none) : f.catches env e ent = true := by
  unfold Frame.catches
  simp [hpc, h]

theorem catches_some (env : Env) (e : Object) {ent : ParsedException} {cp : Nat}
    (hpc : ent.startInsn ≤ f.programCounter ∧ f.programCounter < ent.endInsn)
    (h : ent.catchType = some cp) : f.catches env e ent =
      (env.named (f.myClass, cp)).any fun c => env.instanceof (env.descriptor e) c := by
  unfold Frame.catches
  simp [hpc, h]

/-- What becomes of an exception at the first entry of a table. -/
inductive AtEntry (env : Env) (t : ThreadId) (f : Frame) (e : Object) (ent : ParsedException)
    (table : List ParsedException) (i : Nat) (st st₁ : State) : Prop
  | passed (catches : f.catches env e ent = false)
      (consult : f.consult env e (ent :: table) st = f.consult env e table st₁)
      (find : findExceptionHandler env f (env.descriptor e) (ent :: table) i st =
        findExceptionHandler env f (env.descriptor e) table (i + 1) st₁)
  | caught (catches : f.catches env e ent = true)
      (consult : f.consult env e (ent :: table) st = some st₁)
      (find : findExceptionHandler env f (env.descriptor e) (ent :: table) i st =
        (some (ent, i), st₁))
  /-- The catch type fails to load. -/
  | missed (catches : f.catches env e ent = true)
      (consult : f.consult env e (ent :: table) st = none)
      (find : findExceptionHandler env f (env.descriptor e) (ent :: table) i st =
        findExceptionHandler env f (env.descriptor e) table (i + 1) st₁)

theorem exists_atEntry (henv : env.Lawful t) (hst : st.Named env) (ent : ParsedException)
    (table : List ParsedException) (i : Nat) :
    ∃ st₁, Kept env t st st₁ ∧ AtEntry env t f e ent table i st st₁ := by
  by_cases hpc : ent.startInsn ≤ f.programCounter ∧ f.programCounter < ent.endInsn
  · rcases hct : ent.catchType with _ | cp
    · refine ⟨st, .refl, .caught (catches_none hpc hct) ?_ ?_⟩
      · rw [Frame.consult, if_pos hpc, hct]
      · rw [findExceptionHandler, if_pos hpc, hct]
    · have hkept := loadCatchType_kept henv (f.myClass, cp) st
      have hnamed := named_of_loadCatchType henv hst (f.myClass, cp)
      have hcatches := catches_some env e hpc hct
      have hconsult : f.consult env e (ent :: table) st = if f.catches env e ent then
          if (loadCatchType env (f.myClass, cp) st).1.isSome then
            some (loadCatchType env (f.myClass, cp) st).2
          else none
        else f.consult env e table (loadCatchType env (f.myClass, cp) st).2 := by
        rw [Frame.consult, if_pos hpc, hct]
      rcases hload : loadCatchType env (f.myClass, cp) st with ⟨_ | c, st₁⟩
      · have hfind : findExceptionHandler env f (env.descriptor e) (ent :: table) i st =
            findExceptionHandler env f (env.descriptor e) table (i + 1) st₁ := by
          simp only [findExceptionHandler, if_pos hpc, hct, hload]
        rw [hload] at hkept hconsult
        refine ⟨st₁, hkept, ?_⟩
        by_cases hcatch : f.catches env e ent = true
        · rw [if_pos hcatch] at hconsult
          exact .missed hcatch hconsult hfind
        · rw [if_neg hcatch] at hconsult
          exact .passed (Bool.eq_false_of_not_eq_true hcatch) hconsult hfind
      · have hfind : findExceptionHandler env f (env.descriptor e) (ent :: table) i st =
            if env.instanceof (env.descriptor e) c then (some (ent, i), st₁)
            else findExceptionHandler env f (env.descriptor e) table (i + 1) st₁ := by
          simp only [findExceptionHandler, if_pos hpc, hct, hload]
        rw [hload] at hkept hnamed hconsult
        rw [hnamed c rfl] at hcatches
        replace hcatches : f.catches env e ent = env.instanceof (env.descriptor e) c := hcatches
        rw [hcatches] at hconsult
        refine ⟨st₁, hkept, ?_⟩
        by_cases hcatch : env.instanceof (env.descriptor e) c = true
        · rw [if_pos hcatch] at hconsult hfind
          exact .caught (hcatches.trans hcatch) hconsult hfind
        · rw [if_neg hcatch] at hconsult hfind
          exact .passed (hcatches.trans (Bool.eq_false_of_not_eq_true hcatch)) hconsult hfind
  · refine ⟨st, .refl, .passed (Bool.eq_false_of_not_eq_true fun hcatch => hpc
      (covers_of_catches hcatch)) ?_ ?_⟩
    · rw [Frame.consult, if_neg hpc]
    · rw [findExceptionHandler, if_neg hpc]

/-- The search asks for the same catch types, and ends at the first entry that catches. -/
theorem find_of_consult (henv : env.Lawful t) :
    ∀ {table : List ParsedException} {i : Nat} {st : State}, st.Named env →
      f.consult env e table st = some st' →
      findExceptionHandler env f (env.descriptor e) table i st =
        ((table.zipIdx i).find? fun p => f.catches env e p.1, st') ∧ Kept env t st st'
  | [], i, st, _, h => by
    cases h
    exact ⟨rfl, .refl⟩
  | ent :: table, i, st, hst, h => by
    obtain ⟨st₁, hkept, hentry⟩ := exists_atEntry (f := f) (e := e) henv hst ent table i
    rw [List.zipIdx_cons, List.find?_cons]
    cases hentry with
    | passed hcatches hconsult hfind =>
      obtain ⟨hfind', hkept'⟩ := find_of_consult henv (hkept.named hst) (hconsult ▸ h)
      rw [hcatches, hfind]
      exact ⟨hfind', hkept.trans hkept'⟩
    | caught hcatches hconsult hfind =>
      obtain rfl := Option.some.inj (hconsult.symm.trans h)
      rw [hcatches, hfind]
      exact ⟨rfl, hkept⟩
    | missed _ hconsult _ =>
      rw [hconsult] at h
      cases h

theorem le_of_find : ∀ {table : List ParsedException} {i : Nat} {st : State}
    {type : Class} {p : ParsedException × Nat},
    (findExceptionHandler env f type table i st).1 = some p → i ≤ p.2
  | [], i, st, type, p, h => by cases h
  | ent :: table, i, st, type, p, h => by
    have htail : ∀ {st' : State},
        (findExceptionHandler env f type table (i + 1) st').1 = some p → i ≤ p.2 := fun h' => by
      have := le_of_find h'
      omega
    unfold findExceptionHandler at h
    split_ifs at h with hpc
    · split at h
      · cases h
        exact le_rfl
      · split at h
        · exact htail h
        · split_ifs at h with hinst
          · cases h
            exact le_rfl
          · exact htail h
    · exact htail h

/-- If the catch type of the entry that catches fails to load, the search does not end there. -/
theorem find_of_not_consult (henv : env.Lawful t) :
    ∀ {table : List ParsedException} {i : Nat} {st : State}, st.Named env →
      f.consult env e table st = none →
      ∃ p, ((table.zipIdx i).find? fun p => f.catches env e p.1) = some p ∧
        (findExceptionHandler env f (env.descriptor e) table i st).1 ≠ some p
  | [], i, st, _, h => by cases h
  | ent :: table, i, st, hst, h => by
    obtain ⟨st₁, hkept, hentry⟩ := exists_atEntry (f := f) (e := e) henv hst ent table i
    rw [List.zipIdx_cons, List.find?_cons]
    cases hentry with
    | passed hcatches hconsult hfind =>
      rw [hcatches, hfind]
      exact find_of_not_consult henv (hkept.named hst) (hconsult ▸ h)
    | caught _ hconsult _ =>
      rw [hconsult] at h
      cases h
    | missed hcatches _ hfind =>
      rw [hcatches, hfind]
      refine ⟨_, rfl, fun hfound => ?_⟩
      have := le_of_find hfound
      omega

/-- The catch types that are asked for in a frame. -/
def Frame.asked (env : Env) (f : Frame) (e : Object) (st : State) : Option State :=
  if f.isNative then some st else f.consult env e f.exceptionTable st

theorem search_of_asked (henv : env.Lawful t) (hst : st.Named env)
    (he : st.currentException = some e) (h : f.asked env e st = some st') :
    searchFrame env f st = (f.handler? env e, st') ∧ Kept env t st st' := by
  unfold Frame.asked at h
  unfold searchFrame Frame.handler?
  rw [he]
  rcases hn : f.isNative with _ | _
  · rw [hn] at h
    exact find_of_consult henv hst h
  · rw [hn] at h
    cases h
    exact ⟨rfl, .refl⟩

theorem search_of_not_asked (henv : env.Lawful t) (hst : st.Named env)
    (he : st.currentException = some e) (h : f.asked env e st = none) :
    ∃ p, f.handler? env e = some p ∧ (searchFrame env f st).1 ≠ some p := by
  unfold Frame.asked at h
  unfold searchFrame Frame.handler?
  rw [he]
  rcases hn : f.isNative with _ | _
  · rw [hn] at h
    exact find_of_not_consult henv hst h
  · rw [hn] at h
    cases h

/-! ### One frame -/

/-- A frame is left as it should be. -/
def Frame.EndsWell (f : Frame) (t : ThreadId) (st : State) : Prop :=
  ∀ o, f.monitor = some o → f.getSyncObject = o ∧ 0 < st.world.currentThreadHoldCount t o

/-- The frames below go on in that state. -/
def Frame.ended (f : Frame) (t : ThreadId) (st : State) : State :=
  f.monitor.elim st fun o => st.release t o

theorem ended_exception : (f.ended t st).currentException = st.currentException := by
  unfold Frame.ended
  cases f.monitor <;> rfl

theorem ended_named (h : st.Named env) : (f.ended t st).Named env := by
  unfold Frame.ended
  cases f.monitor <;> exact h

theorem onFrameEnd_of_endsWell (env : Env) (h : f.EndsWell t st) :
    onFrameEnd env t f st = (f.monitor.elim .nothing .released, f.ended t st) ∧ ∀ o,
      st.world.currentThreadHoldCount t o = (f.ended t st).world.currentThreadHoldCount t o +
        if f.monitor = some o then 1 else 0 := by
  unfold Frame.ended
  rcases hm : f.monitor with _ | o
  · exact ⟨onFrameEnd_of_none hm, fun o => rfl⟩
  · obtain ⟨hsync, hpos⟩ := h o hm
    obtain ⟨hend, hholds⟩ := onFrameEnd_of_holds env hm hsync hpos
    refine ⟨hend, fun o' => ?_⟩
    rw [hholds o']
    simp [eq_comm]

/-- It can be told from the record of the frame whether it was left as it should be. -/
theorem endsWell_of_left (h : (onFrameEnd env t f st).1 = f.monitor.elim .nothing .released) :
    f.EndsWell t st := by
  intro o hm
  by_contra hnot
  rw [hm] at h
  exact onFrameEnd_of_not hnot h

theorem unwind_handler {ent : ParsedException × Nat}
    (h : searchFrame env f st = (some ent, st')) : unwind env t (f :: below) st =
      ⟨[], .handler ent { f with
        programCounter := ent.1.handlerInsn
        stack := update f.stack 0 (st'.currentException.getD 0) } below,
        { st' with currentException := none }⟩ := by
  rw [unwind, h]

theorem unwind_left (t : ThreadId) (below : List Frame) (h : searchFrame env f st = (none, st')) :
    ∃ rest, (unwind env t (f :: below) st).left =
      ⟨(onFrameEnd env t f st').1, (onFrameEnd env t f st').2.currentException⟩ :: rest := by
  rw [unwind, h]
  dsimp only
  split_ifs
  · exact ⟨_, rfl⟩
  · exact ⟨_, rfl⟩

theorem unwind_cons (h : searchFrame env f st = (none, st')) (he : st'.currentException = some e)
    (hend : f.EndsWell t st') : unwind env t (f :: below) st =
      { unwind env t below (f.ended t st') with
        left := ⟨f.monitor.elim .nothing .released, some e⟩ ::
          (unwind env t below (f.ended t st')).left } := by
  have he' : (f.ended t st').currentException = some e := ended_exception.trans he
  rw [unwind, h]
  dsimp only
  rw [(onFrameEnd_of_endsWell env hend).1]
  dsimp only
  rw [he', if_neg (by simp)]

theorem unwindsWell_cons : UnwindsWell env t e (f :: below) st ↔
    ∃ st', f.asked env e st = some st' ∧ st'.currentException = some e ∧
      (∀ ent, f.handler? env e = some ent → f.insnIndexToSd ent.1.handlerInsn = 1) ∧
      (f.handler? env e = none → f.EndsWell t st' ∧
        UnwindsWell env t e below (f.ended t st')) := by
  rw [UnwindsWell]
  refine exists_congr fun st' => and_congr_right fun _ => and_congr_right fun _ => ?_
  unfold Frame.EndsWell Frame.ended
  rcases f.handler? env e with _ | ent
  · rcases f.monitor with _ | o
    · simp
    · simp [and_assoc]
  · simp

/-! ### The frames -/

theorem operandStack_eq {stack : Nat → Nat} (h : stack 0 = e) {n : Nat} :
    (List.range n).map stack = [e] ↔ n = 1 := by
  constructor
  · intro heq
    simpa using congrArg List.length heq
  · rintro rfl
    simp [h]

/-- The frame that has a handler. -/
theorem right_handler {ent : ParsedException × Nat} (hkept : Kept env t st st') (he0 : e ≠ 0)
    (hent : f.handler? env e = some ent)
    (hsearch : searchFrame env f st = (some ent, st')) :
    UnwindsRight env t (f :: below) st e (unwind env t (f :: below) st) ↔
      st'.currentException = some e ∧ f.insnIndexToSd ent.1.handlerInsn = 1 := by
  have htake : ((f :: below).takeWhile fun f => (f.handler? env e).isNone) = [] := by
    simp [hent]
  have hdrop : ((f :: below).dropWhile fun f => (f.handler? env e).isNone) = f :: below := by
    simp [hent]
  rw [unwind_handler hsearch]
  constructor
  · rintro ⟨-, hcontrol, -⟩
    rw [hdrop] at hcontrol
    obtain ⟨ent', f', hent', hgo, -, hf', hstack⟩ := hcontrol
    cases hent'.symm.trans hent
    injection hgo with _ hgo
    have hslot : st'.currentException.getD 0 = e := by
      have := congrArg (fun g : Frame => g.stack 0) (hgo.trans hf')
      simpa using this
    rw [hf'] at hstack
    have hsd : (List.range (f.insnIndexToSd ent.1.handlerInsn)).map (update f.stack 0 e) = [e] :=
      hstack
    refine ⟨?_, (operandStack_eq (update_self 0 e f.stack)).mp hsd⟩
    rcases hp : st'.currentException with _ | e'
    · rw [hp] at hslot
      exact absurd hslot.symm he0
    · rw [hp] at hslot
      exact congrArg some hslot
  · rintro ⟨he, hsd⟩
    refine ⟨by rw [htake]; rfl, ?_, fun o => ?_⟩
    · rw [hdrop]
      refine ⟨ent, _, hent, rfl, rfl, by rw [he]; rfl, ?_⟩
      rw [he]
      exact (operandStack_eq (update_self 0 e f.stack)).mpr hsd
    · rw [htake]
      exact hkept.holds o

/-- A frame that has none and is left as it should be. -/
theorem right_cons (hkept : Kept env t st st') (hent : f.handler? env e = none)
    (hend : f.EndsWell t st') {out : Outcome} :
    UnwindsRight env t (f :: below) st e
        { out with left := ⟨f.monitor.elim .nothing .released, some e⟩ :: out.left } ↔
      UnwindsRight env t below (f.ended t st') e out := by
  have htake : ((f :: below).takeWhile fun f => (f.handler? env e).isNone) =
      f :: below.takeWhile fun f => (f.handler? env e).isNone := by
    simp [hent]
  have hdrop : ((f :: below).dropWhile fun f => (f.handler? env e).isNone) =
      below.dropWhile fun f => (f.handler? env e).isNone := by
    simp [hent]
  have hholds : ∀ o, st.world.currentThreadHoldCount t o =
      (f.ended t st').world.currentThreadHoldCount t o + if f.monitor = some o then 1 else 0 :=
    fun o => (hkept.holds o).trans ((onFrameEnd_of_endsWell env hend).2 o)
  constructor
  · rintro ⟨hleft, hcontrol, hcount⟩
    rw [htake] at hleft
    rw [hdrop] at hcontrol
    refine ⟨(List.cons.inj hleft).2, hcontrol, fun o => ?_⟩
    have := hcount o
    rw [hholds o, htake, List.countP_cons] at this
    simp only [decide_eq_true_eq] at this
    omega
  · rintro ⟨hleft, hcontrol, hcount⟩
    refine ⟨by rw [htake]; exact congrArg _ hleft, by rw [hdrop]; exact hcontrol, fun o => ?_⟩
    rw [hholds o, hcount o, htake, List.countP_cons]
    simp only [decide_eq_true_eq]
    omega

/-- A synchronized frame that does not find its monitor is not left well: a native one of an instance
method, whose first slot is a handle, and one that has stored to local 0. -/
theorem not_unwindsWell_of_lost (hent : f.handler? env e = none) (hm : f.monitor = some o)
    (hlost : f.getSyncObject ≠ o) : ¬ UnwindsWell env t e (f :: below) st := by
  rw [unwindsWell_cons]
  rintro ⟨st', -, -, -, hnone⟩
  exact hlost ((hnone hent).1 o hm).1

theorem not_unwindsWell_of_native (hn : f.isNative = true) (hs : f.isStatic = false)
    (hm : f.monitor = some o) : ¬ UnwindsWell env t e (f :: below) st :=
  not_unwindsWell_of_lost (by simp [Frame.handler?, hn]) hm (getSyncObject_ne_of_native hn hs hm)

/-- A frame that starts takes its monitor, where nobody else has it, and finds it as long as local 0
is the receiver. -/
theorem onFrameStart_endsWell {a : Addr} {hold : Nat} (hm : f.monitor = some o)
    (h0 : f.isStatic = false → f.locals 0 = f.receiver)
    (hfree : (w.header o).owner = none ∨ (w.header o).owner = some t)
    (hhold : w.currentThreadHoldCount t o = hold) (hbound : hold + 1 < uint32Size)
    (hst : st.world = f.onFrameStart t false a w) :
    f.EndsWell t st ∧ st.world.currentThreadHoldCount t o = hold + 1 := by
  have hsync : f.getSyncObject = o := by
    unfold Frame.monitor at hm
    unfold Frame.getSyncObject
    split_ifs at hm ⊢ with hsync hstatic
    · exact Option.some.inj hm
    · rw [h0 (by simpa using hstatic)]
      exact Option.some.inj hm
  have hcount : (w.monitorAcquire t o false a).currentThreadHoldCount t o = hold + 1 := by
    subst hhold
    exact monitorAcquire_holdCount hfree hbound
  unfold Frame.onFrameStart at hst
  rw [hsync, if_neg (monitor_ne hm)] at hst
  rw [hst]
  refine ⟨fun o' ho' => ?_, hcount⟩
  cases hm.symm.trans ho'
  exact ⟨hsync, by rw [hst, hcount]; omega⟩

/-- Exceptions are caught where they should be, and the frames they leave release their monitors, if
and only if the catch types asked for leave the exception pending, the one that catches it loads,
and the frames that are left hold and find their monitors. -/
theorem unwindsRight_iff (henv : env.Lawful t) (he0 : e ≠ 0) :
    ∀ {frames : List Frame} {st : State}, st.Named env → st.currentException = some e →
      (UnwindsRight env t frames st e (unwind env t frames st) ↔ UnwindsWell env t e frames st)
  | [], st, _, he => iff_of_true ⟨rfl, ⟨rfl, he⟩, fun _ => rfl⟩ trivial
  | f :: below, st, hst, he => by
    rw [unwindsWell_cons]
    rcases hasked : f.asked env e st with _ | st'
    · obtain ⟨ent, hent, hne⟩ := search_of_not_asked henv hst he hasked
      refine iff_of_false (fun hright => ?_) (by simp)
      have hleft := hright.left
      have hcontrol := hright.control
      rcases hsearch : searchFrame env f st with ⟨_ | ent', st'⟩
      · obtain ⟨rest, hrest⟩ := unwind_left t below hsearch
        rw [hrest] at hleft
        simp [hent] at hleft
      · rw [unwind_handler hsearch] at hcontrol
        simp only [hent, Option.isNone_some, List.dropWhile_cons, Bool.false_eq_true,
          if_false] at hcontrol
        obtain ⟨ent'', f', hent'', hgo, -⟩ := hcontrol
        injection hgo with hgo
        rw [hsearch] at hne
        exact hne (by rw [hgo, hent''])
    · obtain ⟨hsearch, hkept⟩ := search_of_asked henv hst he hasked
      rcases hent : f.handler? env e with _ | ent
      · rw [hent] at hsearch
        by_cases hend : f.EndsWell t st' ∧ st'.currentException = some e
        · obtain ⟨hend, he'⟩ := hend
          rw [unwind_cons hsearch he' hend, right_cons hkept hent hend,
            unwindsRight_iff henv he0 (ended_named (hkept.named hst)) (ended_exception.trans he')]
          simp [he', hend]
        · refine iff_of_false (fun hright => hend ?_) fun hwell => hend ?_
          · obtain ⟨rest, hrest⟩ := unwind_left t below hsearch
            have hleft := hright.left
            rw [hrest] at hleft
            simp only [hent, Option.isNone_none, List.takeWhile_cons, if_true, List.map_cons,
              List.cons.injEq, Left.mk.injEq] at hleft
            obtain ⟨⟨hmonitor, hex⟩, -⟩ := hleft
            have hends := endsWell_of_left hmonitor
            rw [(onFrameEnd_of_endsWell env hends).1] at hex
            exact ⟨hends, ended_exception.symm.trans hex⟩
          · obtain ⟨st'', hst'', he', -, hnone⟩ := hwell
            cases hst''
            exact ⟨(hnone rfl).1, he'⟩
      · rw [hent] at hsearch
        rw [right_handler hkept he0 hent hsearch]
        simp

/-- A VM in which every name stands for the class 5, or for none. -/
def simpleEnv (found : Bool) : Env where
  descriptor _ := 5
  instanceof a b := a = b
  lookupClass _ st := (if found then some 5 else none, st)
  linkClass _ st := (true, st)
  raiseIllegalMonitorState st := { st with currentException := some 99 }
  named _ := if found then some 5 else none

theorem simpleEnv_lawful (found : Bool) : (simpleEnv found).Lawful 0 where
  lookup _ _ _ h := h
  lookup_named _ _ h := h
  lookup_holds _ _ _ := rfl
  link_named _ _ h := h
  link_holds _ _ _ := rfl

/-- An exception leaves a native frame and that of a synchronized method, and is caught by type. -/
def caughtFrames : List Frame :=
  [{ isNative := true, isStatic := true },
    { isSynchronized := true, receiver := 3, locals := fun _ => 3, receiver_ne := by decide,
      handle_ne := by decide },
    { programCounter := 2, exceptionTable := [⟨⟨0, 2, 4⟩, none⟩, ⟨⟨1, 3, 6⟩, some 7⟩],
      insnIndexToSd := fun _ => 1 }]

def caughtState : State where
  world := { header := fun _ => .expanded { tid := some 0, holdCount := 1, markWord := {} } }
  currentException := some 10

theorem caughtFrames_right : UnwindsRight (simpleEnv true) 0 caughtFrames caughtState 10
    (unwind (simpleEnv true) 0 caughtFrames caughtState) :=
  (unwindsRight_iff (simpleEnv_lawful true) (by decide) (by intro ref c h; cases h) rfl).mpr
    ⟨caughtState, rfl, rfl, caughtState, rfl, rfl, rfl, by decide, _, rfl, rfl, rfl⟩

/-- A `try` with a catch type that is not there. -/
def missingCatch : Frame := { exceptionTable := [⟨⟨0, 1, 1⟩, some 7⟩] }

/-- The exception 11 is thrown in it, after 10 has been. -/
def thrownAgain : State :=
  { (unwind (simpleEnv false) 0 [missingCatch] { currentException := some 10 }).state with
    currentException := some 11 }

/-- The exception 10 comes out of it again. -/
theorem thrownAgain_stale : (simpleEnv false).Lawful 0 ∧ thrownAgain.Named (simpleEnv false) ∧
    thrownAgain.currentException = some 11 ∧
    (unwind (simpleEnv false) 0 [missingCatch] thrownAgain).state.currentException = some 10 ∧
    ¬ UnwindsRight (simpleEnv false) 0 [missingCatch] thrownAgain 11
      (unwind (simpleEnv false) 0 [missingCatch] thrownAgain) := by
  have hpending : (unwind (simpleEnv false) 0 [missingCatch] thrownAgain).state.currentException =
      some 10 := rfl
  refine ⟨simpleEnv_lawful false, ?_, rfl, hpending, fun hright => ?_⟩
  · exact named_update (by intro ref c h; cases h) (by intro c h; cases h)
  · have hcontrol := hright.control.2
    rw [hpending] at hcontrol
    cases hcontrol

end BJvm.Unwinding
