import BJvm.Threads.JsHandles
import BJvm.Proofs.Scheduler

/-!
# Handles and execution records

As long as a record is freed only behind its call, or while no handle has the index 0, the handles of
JavaScript and of the records stay apart, and each keeps its object (`handlesKept_of_run`).
-/

namespace BJvm.Threads

open Function (update)

variable {table : List Object} {s s' : HandleState} {env : Env} {i j r : Nat} {obj : Object}
  {owner : Owner} {t : ThreadId} {result : CallResult}

/-! ### The table -/

theorem derefJsHandle_set : derefJsHandle (table.set i obj) j =
    if i = j ∧ i < table.length then obj else derefJsHandle table j := by
  rw [derefJsHandle, derefJsHandle, List.getElem?_set]
  by_cases hij : i = j
  · subst hij
    by_cases hlt : i < table.length <;> simp [hlt]
  · simp [hij]

theorem derefJsHandle_drop (table : List Object) (i j : Nat) :
    derefJsHandle (dropJsHandle table i) j = if i = j then 0 else derefJsHandle table j := by
  rw [dropJsHandle, derefJsHandle_set]
  by_cases hij : i = j
  · subst hij
    by_cases hlt : i < table.length
    · simp [hlt]
    · simp [hlt, derefJsHandle]
  · simp [hij]

theorem makeJsHandle_free (table : List Object) (obj : Object) :
    derefJsHandle table (makeJsHandle table obj).2 = 0 := by
  rw [makeJsHandle]
  split
  · rename_i i hi
    obtain ⟨hlt, h0, -⟩ := List.findIdx?_eq_some_iff_getElem.mp hi
    simpa [derefJsHandle, hlt] using h0
  · simp [derefJsHandle]

theorem derefJsHandle_make (table : List Object) (obj : Object) (j : Nat) :
    derefJsHandle (makeJsHandle table obj).1 j =
      if j = (makeJsHandle table obj).2 then obj else derefJsHandle table j := by
  rw [makeJsHandle]
  split
  · rename_i i hi
    obtain ⟨hlt, -, -⟩ := List.findIdx?_eq_some_iff_getElem.mp hi
    simp [derefJsHandle_set, hlt, eq_comm]
  · simp only [derefJsHandle, List.getElem?_append]
    split_ifs with hlt hj hj
    · omega
    · rfl
    · simp [hj]
    · rw [List.getElem?_eq_none (by simp; omega), List.getElem?_eq_none (by omega)]

theorem derefJsHandle_map {f : Object → Object} (hf : f 0 = 0) :
    derefJsHandle (table.map f) i = f (derefJsHandle table i) := by
  rw [derefJsHandle, derefJsHandle, List.getElem?_map]
  cases table[i]? <;> simp [hf]

theorem mem_table_of_deref (h : derefJsHandle table i ≠ 0) : derefJsHandle table i ∈ table := by
  unfold derefJsHandle at h ⊢
  rcases ht : table[i]? with _ | o
  · simp [ht] at h
  · exact List.mem_of_getElem? ht

/-! ### The records -/

theorem step_records (s : Scheduler) (env : Env) : (s.step env).records = s.records := by
  unfold Scheduler.step
  split_ifs
  · rfl
  · split
    · rfl
    · dsimp only
      split_ifs <;> rfl

theorem executePending_records (t : ThreadId) (r : Nat) (env : Env) : ∀ (calls : List Nat)
    (s : Scheduler), (s.executePending t r env calls).records = s.records
  | [], _ => rfl
  | call :: calls, s => by
    rw [Scheduler.executePending]
    split
    · rfl
    · dsimp only
      split_ifs
      · rfl
      · exact executePending_records t r env calls _

theorem unshift_records (s : Scheduler) (t : ThreadId) (o : Object) :
    (s.unshift t o).records = s.records := by
  rw [Scheduler.unshift]
  split
  · dsimp only
    split_ifs <;> rfl
  · rfl

/-- A record changes where its call is completed; a new one starts empty. -/
theorem apply_records {s s' : Scheduler} {op : Op} (h : op.apply env s = some s')
    (hop : ∀ result, op ≠ .ready result) (r : Nat) :
    s'.records r = s.records r ∨ s'.records r = {} := by
  cases op with
  | run t =>
    simp only [Op.apply] at h
    split_ifs at h
    cases h
    have hsame : (s.getOrCreateThreadInfo t).records = s.records ∧
        (s.getOrCreateThreadInfo t).recordCount = s.recordCount := by
      unfold Scheduler.getOrCreateThreadInfo
      split_ifs <;> exact ⟨rfl, rfl⟩
    simp only [Scheduler.run, hsame.1, hsame.2]
    by_cases hr : r = s.recordCount
    · exact .inr (by rw [hr, Function.update_self])
    · exact .inl (Function.update_of_ne hr _ _)
  | step =>
    simp only [Op.apply] at h
    split_ifs at h
    cases h
    exact .inl (by rw [step_records])
  | ready result => exact absurd rfl (hop result)
  | notReady wakeup =>
    obtain ⟨t, -, rfl⟩ := Option.map_eq_some_iff.mp h
    exact .inl rfl
  | write a info =>
    cases h
    exact .inl rfl
  | executeImmediately record =>
    simp only [Op.apply] at h
    split_ifs at h
    cases h
    refine .inl ?_
    rw [Scheduler.executeImmediately]
    split
    · rw [executePending_records]
    · rfl

/-! ### Steps -/

/-- The handles, the table and the records agree. -/
structure HandleInv (s : HandleState) : Prop extends HandlesKept s where
  held : ∀ i, derefJsHandle s.table i ≠ 0 → ∃ h ∈ s.live, h.index = i
  completed : ∀ r ∉ s.freed, (s.scheduler.records r).isDone = true →
    ∀ i, (s.scheduler.records r).jsHandle = some i → ∃ h ∈ s.live, h.owner = .record r ∧ h.index = i
  pending : ∀ r, (s.scheduler.records r).isDone = false →
    (s.scheduler.records r).jsHandle = some 0

namespace HandleInv

theorem not_live (h : HandleInv s) (h0 : derefJsHandle s.table i = 0) :
    i ∉ s.live.map JsHandle.index := fun hi => by
  obtain ⟨x, hx, rfl⟩ := List.mem_map.mp hi
  obtain ⟨hne, heq⟩ := h.deref x hx
  exact hne (heq.symm.trans h0)

theorem make (h : HandleInv s) (owner : Owner) (hobj : obj ≠ 0) : HandleInv (s.make owner obj) where
  deref x hx := by
    simp only [HandleState.make, derefJsHandle_make]
    rcases List.mem_cons.mp hx with rfl | hx
    · exact ⟨hobj, if_pos rfl⟩
    · refine ⟨(h.deref x hx).1, ?_⟩
      have hne : x.index ≠ (makeJsHandle s.table obj).2 := fun hi =>
        h.not_live (makeJsHandle_free s.table obj) (hi ▸ List.mem_map_of_mem hx)
      rw [if_neg hne]
      exact (h.deref x hx).2
  distinct := List.nodup_cons.mpr ⟨h.not_live (makeJsHandle_free s.table obj), h.distinct⟩
  held i hi := by
    simp only [HandleState.make, derefJsHandle_make] at hi
    split_ifs at hi with heq
    · exact ⟨_, List.mem_cons_self, heq.symm⟩
    · obtain ⟨x, hx, hxi⟩ := h.held i hi
      exact ⟨x, List.mem_cons_of_mem _ hx, hxi⟩
  completed r hr hdone i hi := by
    obtain ⟨x, hx, hxo⟩ := h.completed r hr hdone i hi
    exact ⟨x, List.mem_cons_of_mem _ hx, hxo⟩
  pending := h.pending

/-- What is left when one handle is dropped. -/
theorem kept_of_drop (h : HandleInv s) {x : JsHandle} (hx : x ∈ s.live) {live : List JsHandle}
    (hsub : live.Sublist s.live) (hlive : ∀ y, y ∈ live ↔ y ∈ s.live ∧ y ≠ x) :
    HandlesKept { s with table := dropJsHandle s.table x.index, live } ∧
      ∀ i, derefJsHandle (dropJsHandle s.table x.index) i ≠ 0 → ∃ y ∈ live, y.index = i := by
  have hindex : ∀ y ∈ s.live, y.index = x.index → y = x := fun y hy heq =>
    List.inj_on_of_nodup_map h.distinct hy hx heq
  refine ⟨⟨fun y hy => ?_, h.distinct.sublist (hsub.map _)⟩, fun i hi => ?_⟩
  · obtain ⟨hy, hne⟩ := (hlive y).mp hy
    refine ⟨(h.deref y hy).1, ?_⟩
    rw [derefJsHandle_drop, if_neg fun heq => hne (hindex y hy heq.symm)]
    exact (h.deref y hy).2
  · rw [derefJsHandle_drop] at hi
    split_ifs at hi with heq
    · exact absurd rfl hi
    · obtain ⟨y, hy, rfl⟩ := h.held i hi
      exact ⟨y, (hlive y).mpr ⟨hy, fun hyx => heq (hyx ▸ rfl)⟩, rfl⟩

theorem drop (h : HandleInv s) {x : JsHandle} (hx : x ∈ s.live) (howner : x.owner = .javaScript) :
    HandleInv { s with table := dropJsHandle s.table x.index, live := s.live.erase x } := by
  have hlive : ∀ y, y ∈ s.live.erase x ↔ y ∈ s.live ∧ y ≠ x := fun y => by
    rw [(List.Nodup.of_map _ h.distinct).mem_erase_iff, and_comm]
  obtain ⟨hkept, hheld⟩ := h.kept_of_drop hx List.erase_sublist hlive
  refine { hkept with held := hheld, completed := fun r hr hdone i hi => ?_, pending := h.pending }
  obtain ⟨y, hy, hyo, hyi⟩ := h.completed r hr hdone i hi
  refine ⟨y, (hlive y).mpr ⟨hy, fun hyx => ?_⟩, hyo, hyi⟩
  rw [hyx, howner] at hyo
  cases hyo

/-- The record drops no handle, or the one of its result. -/
theorem free_cases (h : HandleInv s) (hr : r ∉ s.freed) (hmay : MayFree s r) :
    ((∀ i, derefJsHandle (s.freeExecutionRecord r).table i = derefJsHandle s.table i) ∧
      (s.freeExecutionRecord r).live = s.live) ∨
    ∃ x ∈ s.live, x.owner = .record r ∧
      (s.freeExecutionRecord r).table = dropJsHandle s.table x.index ∧
      ∀ y, y ∈ (s.freeExecutionRecord r).live ↔ y ∈ s.live ∧ y ≠ x := by
  rcases hi : (s.scheduler.records r).jsHandle with _ | i
  · refine .inl ⟨fun j => by simp [HandleState.freeExecutionRecord, hi], ?_⟩
    simp [HandleState.freeExecutionRecord, HandleState.heldBy, hi]
  · have htable : (s.freeExecutionRecord r).table = dropJsHandle s.table i := by
      simp [HandleState.freeExecutionRecord, hi]
    rcases hdone : (s.scheduler.records r).isDone with _ | _
    · have h0 : i = 0 := by
        have := h.pending r hdone
        rw [hi, Option.some.injEq] at this
        exact this
      have hno : ∀ y ∈ s.live, y.index ≠ 0 := hmay.resolve_left (by simp [hdone])
      refine .inl ⟨fun j => ?_, ?_⟩
      · rw [htable, derefJsHandle_drop]
        split_ifs with hj
        · by_contra hne
          obtain ⟨y, hy, hyj⟩ := h.held j (Ne.symm hne)
          exact hno y hy (by rw [hyj, ← hj, h0])
        · rfl
      · refine List.filter_eq_self.mpr fun y hy => ?_
        simp [HandleState.heldBy, hi, h0, (hno y hy).symm]
    · obtain ⟨x, hx, hxo, rfl⟩ := h.completed r hr hdone i hi
      refine .inr ⟨x, hx, hxo, htable, fun y => ?_⟩
      have hheld : y ∈ s.live → (s.heldBy r y = true ↔ y = x) := fun hy => by
        simp only [HandleState.heldBy, hi, Option.some.injEq, decide_eq_true_eq]
        refine ⟨fun ⟨_, heq⟩ => List.inj_on_of_nodup_map h.distinct hy hx heq.symm, ?_⟩
        rintro rfl
        exact ⟨hxo, rfl⟩
      simp only [HandleState.freeExecutionRecord, List.mem_filter, Bool.not_eq_true']
      refine and_congr_right fun hy => ?_
      rw [← Bool.not_eq_true, hheld hy]

theorem free (h : HandleInv s) (hr : r ∉ s.freed) (hmay : MayFree s r) :
    HandleInv (s.freeExecutionRecord r) := by
  rcases h.free_cases hr hmay with ⟨hderef, hlive⟩ | ⟨x, hx, hxo, htable, hlive⟩
  · refine ⟨⟨fun y hy => ?_, ?_⟩, fun i hi => ?_, fun r' hr' hdone i hi => ?_, h.pending⟩
    · rw [hderef]
      exact h.deref y (hlive ▸ hy)
    · rw [hlive]
      exact h.distinct
    · rw [hlive]
      exact h.held i (hderef i ▸ hi)
    · rw [hlive]
      exact h.completed r' (fun hf => hr' (List.mem_cons_of_mem _ hf)) hdone i hi
  · obtain ⟨hkept, hheld⟩ := h.kept_of_drop hx List.filter_sublist hlive
    refine ⟨⟨fun y hy => ?_, hkept.distinct⟩, fun i hi => ?_, fun r' hr' hdone i hi => ?_,
      h.pending⟩
    · rw [htable]
      exact hkept.deref y hy
    · rw [htable] at hi
      exact hheld i hi
    · obtain ⟨y, hy, hyo, hyi⟩ :=
        h.completed r' (fun hf => hr' (List.mem_cons_of_mem _ hf)) hdone i hi
      refine ⟨y, (hlive y).mpr ⟨hy, fun hyx => ?_⟩, hyo, hyi⟩
      rw [hyx, hxo, Owner.record.injEq] at hyo
      exact hr' (hyo ▸ List.mem_cons_self)

theorem callReady (h : HandleInv s) : HandleInv (s.callReady t r result env) := by
  rw [HandleState.callReady]
  split_ifs with href
  · have hne : result.returned ≠ 0 := by simp_all
    have hm := h.make (.record r) hne
    refine { hm with completed := fun r' hr' hdone i hi => ?_, pending := fun r' hdone => ?_ } <;>
      simp only [Scheduler.callReady, unshift_records] at *
    · by_cases hrr : r' = r
      · subst hrr
        simp only [Function.update_self, href, if_true, Option.some.injEq] at hi
        exact ⟨_, List.mem_cons_self, rfl, hi⟩
      · rw [Function.update_of_ne hrr] at hdone hi
        exact hm.completed r' hr' hdone i hi
    · by_cases hrr : r' = r
      · simp [hrr] at hdone
      · rw [Function.update_of_ne hrr] at hdone ⊢
        exact h.pending r' hdone
  · refine { h with completed := fun r' hr' hdone i hi => ?_, pending := fun r' hdone => ?_ } <;>
      simp only [Scheduler.callReady, unshift_records] at *
    · by_cases hrr : r' = r
      · subst hrr
        rw [Function.update_self] at hi
        simp only [if_neg href] at hi
        cases hi
      · rw [Function.update_of_ne hrr] at hdone hi
        exact h.completed r' hr' hdone i hi
    · by_cases hrr : r' = r
      · simp [hrr] at hdone
      · rw [Function.update_of_ne hrr] at hdone ⊢
        exact h.pending r' hdone

theorem collect (h : HandleInv s) {f : Object → Object}
    (hf : ∀ obj ∈ s.table, obj ≠ 0 → f obj ≠ 0) : HandleInv (s.collect f) := by
  set forward := fun obj => if obj = 0 then 0 else f obj with hforward
  have hderef : ∀ i, derefJsHandle (s.table.map forward) i = forward (derefJsHandle s.table i) :=
    fun i => derefJsHandle_map (if_pos rfl)
  have hindex : (s.collect f).live.map JsHandle.index = s.live.map JsHandle.index := by
    simp [HandleState.collect, Function.comp_def]
  have hmem : ∀ {P : JsHandle → Prop}, (∀ x, P { x with object := forward x.object } ↔ P x) →
      (∃ x ∈ s.live, P x) → ∃ x ∈ (s.collect f).live, P x := fun hP ⟨x, hx, hxP⟩ =>
    ⟨_, List.mem_map_of_mem hx, (hP x).mpr hxP⟩
  refine ⟨⟨fun y hy => ?_, hindex ▸ h.distinct⟩, fun i hi => ?_, fun r hr hdone i hi => ?_,
    h.pending⟩
  · obtain ⟨x, hx, rfl⟩ := List.mem_map.mp hy
    obtain ⟨hne, heq⟩ := h.deref x hx
    refine ⟨?_, (hderef x.index).trans (congrArg forward heq)⟩
    have hin := mem_table_of_deref (heq ▸ hne : derefJsHandle s.table x.index ≠ 0)
    simpa [hforward, hne] using hf _ (heq ▸ hin) hne
  · have hne : derefJsHandle s.table i ≠ 0 := fun h0 => hi (by
      show derefJsHandle (s.table.map forward) i = 0
      rw [hderef, h0]
      exact if_pos rfl)
    exact hmem (fun _ => Iff.rfl) (h.held i hne)
  · exact hmem (fun _ => Iff.rfl) (h.completed r hr hdone i hi)

theorem scheduler (h : HandleInv s) {op : Op} {sched : Scheduler}
    (hop : ∀ result, op ≠ .ready result) (hstep : op.apply env s.scheduler = some sched) :
    HandleInv { s with scheduler := sched } := by
  refine { h with completed := fun r hr hdone i hi => ?_, pending := fun r hdone => ?_ } <;>
    rcases apply_records hstep hop r with heq | heq
  · exact h.completed r hr (heq ▸ hdone) i (heq ▸ hi)
  · simp only [heq] at hdone
    cases hdone
  · simp only [heq] at hdone ⊢
    exact h.pending r hdone
  · simp only [heq]

theorem apply (h : HandleInv s) {op : HandleOp} (hstep : op.apply env s = some s')
    (hop : FreesCompleted s op) : HandleInv s' := by
  cases op with
  | create obj =>
    simp only [HandleOp.apply] at hstep
    split_ifs at hstep with h0
    cases hstep
    exact h.make .javaScript h0
  | drop x =>
    simp only [HandleOp.apply] at hstep
    split_ifs at hstep with hx
    cases hstep
    exact h.drop hx.1 hx.2
  | free r =>
    simp only [HandleOp.apply] at hstep
    split_ifs at hstep with hr
    cases hstep
    exact h.free hr.2 hop
  | collect f =>
    simp only [HandleOp.apply] at hstep
    split_ifs at hstep with hf
    cases hstep
    exact h.collect hf
  | ready result =>
    simp only [HandleOp.apply, Option.bind_eq_bind, Option.bind_eq_some_iff] at hstep
    obtain ⟨t, -, info, -, r, -, hstep⟩ := hstep
    split_ifs at hstep
    cases hstep
    exact h.callReady
  | scheduler op =>
    cases op with
    | ready result => cases hstep
    | _ =>
      simp only [HandleOp.apply] at hstep
      split_ifs at hstep
      obtain ⟨sched, hsched, rfl⟩ := Option.map_eq_some_iff.mp hstep
      exact h.scheduler (fun _ heq => by cases heq) hsched

end HandleInv

/-! ### Runs -/

theorem HandleRun.next {P : HandleState → HandleOp → Prop} (run : HandleRun P s) (env : Env)
    (op : HandleOp) (h : (op.apply env s).isSome) (hop : P s op) :
    HandleRun P ((op.apply env s).get h) :=
  .step env run (Option.some_get h).symm hop

/-- The values of `js_handles`. -/
def handleTable (vm : Gc.Vm) : List Object := vm.jsHandles.map vm.mem

theorem derefJsHandle_handleTable (vm : Gc.Vm) (i : Nat) :
    derefJsHandle (handleTable vm) i = vm.derefJsHandle i := by
  rw [derefJsHandle, handleTable, Gc.Vm.derefJsHandle, List.getElem?_map]
  cases vm.jsHandles[i]? <;> rfl

theorem makeJsHandle_handleTable {vm : Gc.Vm} (hn : vm.jsHandles.Nodup) (obj base : Nat) :
    (handleTable (vm.makeJsHandle obj base).1, (vm.makeJsHandle obj base).2) =
      makeJsHandle (handleTable vm) obj := by
  have hfind : (handleTable vm).findIdx? (· = 0) = vm.jsHandles.findIdx? fun a => vm.mem a = 0 := by
    rw [handleTable, List.findIdx?_map]
    rfl
  rcases h : vm.jsHandles.findIdx? fun a => vm.mem a = 0 with _ | i
  · rw [Gc.Vm.makeJsHandle, makeJsHandle, hfind, h]
    refine Prod.ext (List.ext_getElem (by simp [handleTable]) fun j hj hj' => ?_)
      (by simp [handleTable])
    simp only [handleTable, List.length_map, List.length_range] at hj
    simp only [handleTable, List.getElem_map, List.getElem_range]
    rw [Gc.writeArray_self hj, List.getD_eq_getElem?_getD, List.getElem?_eq_getElem hj,
      Option.getD_some]
  · obtain ⟨hlt, -, -⟩ := List.findIdx?_eq_some_iff_getElem.mp h
    rw [Gc.Vm.makeJsHandle, makeJsHandle, hfind, h]
    refine Prod.ext (List.ext_getElem (by simp [handleTable]) fun j hj hj' => ?_) rfl
    have hjlt : j < vm.jsHandles.length := by simpa [handleTable] using hj
    have hslot : vm.jsHandles[j] = vm.jsHandles[i] ↔ j = i := hn.getElem_inj_iff
    by_cases hji : j = i
    · simp [handleTable, hji, hlt]
    · rw [List.getElem_set_of_ne (Ne.symm hji)]
      simp [handleTable, hlt, hslot, hji]

/-- A collection that keeps the scheduler's objects moves those of the table. -/
theorem handleTable_collected {vm : Gc.Vm} {desc : Nat → Collector.Classdesc} {heapUsed : Nat}
    {objects : List Nat} (h : vm.LaidOut)
    (hw : Collector.WellFormed desc (vm.collector heapUsed) objects vm.rootSlots)
    (hfits : vm.QueueFits) :
    ∃ roots vm' f, vm.majorGcEnumerateGcRoots = some roots ∧
      Collector.majorGc desc (vm.collector heapUsed) roots = some vm' ∧
      ∀ i, derefJsHandle (handleTable vm) i ≠ 0 →
        (vm.collector heapUsed).inHeap (derefJsHandle (handleTable vm) i) = true →
        derefJsHandle (vm.jsHandles.map vm'.mem) i =
          Collector.forward (vm.collector heapUsed) f (derefJsHandle (handleTable vm) i) := by
  let executions : List Gc.ExecutionRecord :=
    (List.range vm.jsHandles.length).map fun i => { isDone := true, jsHandle := some i }
  obtain ⟨roots, vm', -, f, hroots, hrun, -, -, hkept⟩ :=
    @Gc.schedulerKept_of_fits vm desc heapUsed objects executions h hw hfits
  refine ⟨roots, vm', f, hroots, hrun, fun i hne hin => ?_⟩
  rw [derefJsHandle_handleTable, Gc.Vm.derefJsHandle] at hne hin ⊢
  rcases hi : vm.jsHandles[i]? with _ | a
  · simp [hi] at hne
  · rw [hi] at hne hin
    have hlt := (List.getElem?_eq_some_iff.mp hi).1
    have hlive : vm.live a = true := by
      rw [Gc.Vm.live, Bool.and_eq_true]
      exact ⟨decide_eq_true hne, hin⟩
    have := (hkept { isDone := true, jsHandle := some i }
      (List.mem_map_of_mem (List.mem_range.mpr hlt)) rfl a (by simp [Gc.Vm.resultSlot, hi]) hlive).2
    simpa [derefJsHandle, hi] using this

end BJvm.Threads
