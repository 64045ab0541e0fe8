import BJvm.Threads.RoundRobin

/-!
# Pending calls and their records

A call is in the queue of its thread until it has finished, and the queues keep the order in which
calls were enqueued, as long as none finishes in `rr_scheduler_execute_immediately`: there it leaves
the queue, but its record is not marked.
-/

namespace BJvm.Threads

open Function (update)

variable {infos infos' : List ThreadInfo} {info x : ThreadInfo} {s s' : Scheduler} {env : Env}
  {t t' : ThreadId} {r n : Nat} {m : Machine} {mem : Memory} {time : Nat}
  {sleeping : ThreadInfo → Bool}

/-! ### Rotation -/

/-- The threads stay the same, and one that is found is the last of them. -/
theorem rotateToAwake_perm (sleeping : ThreadInfo → Bool) : ∀ (n : Nat) (infos : List ThreadInfo),
    (rotateToAwake sleeping n infos).1.Perm infos ∧
      ∀ info, (rotateToAwake sleeping n infos).2 = some info → sleeping info = false ∧
        ∃ l, (rotateToAwake sleeping n infos).1 = l ++ [info]
  | 0, infos => by
    unfold rotateToAwake
    exact ⟨.refl _, fun _ h => by cases h⟩
  | n + 1, [] => by
    unfold rotateToAwake
    exact ⟨.refl _, fun _ h => by cases h⟩
  | n + 1, x :: infos => by
    unfold rotateToAwake
    split_ifs with h
    · obtain ⟨hperm, hfound⟩ := rotateToAwake_perm sleeping n (infos ++ [x])
      exact ⟨hperm.trans List.perm_append_comm, hfound⟩
    · refine ⟨List.perm_append_comm, fun info hinfo => ?_⟩
      cases hinfo
      exact ⟨by simpa using h, infos, rfl⟩

/-- A thread that is awake is found, or one before it, and it moves up. -/
theorem rotateToAwake_found : ∀ (pre post : List ThreadInfo) (n : Nat), sleeping x = false →
    pre.length < n → rotateToAwake sleeping n (pre ++ x :: post) = (post ++ pre ++ [x], some x) ∨
      ∃ pre₁ y pre₂, pre = pre₁ ++ y :: pre₂ ∧
        rotateToAwake sleeping n (pre ++ x :: post) =
          (pre₂ ++ x :: (post ++ pre₁ ++ [y]), some y)
  | _, _, 0, _, h => absurd h (Nat.not_lt_zero _)
  | [], post, n + 1, hx, _ => by
    left
    unfold rotateToAwake
    simp [hx]
  | y :: pre, post, n + 1, hx, hn => by
    by_cases hy : sleeping y = true
    · have hrec : rotateToAwake sleeping (n + 1) (y :: pre ++ x :: post) =
          rotateToAwake sleeping n (pre ++ x :: (post ++ [y])) := by
        rw [List.cons_append, rotateToAwake, if_pos hy]
        simp
      rw [hrec]
      rcases rotateToAwake_found pre (post ++ [y]) n hx
        (Nat.lt_of_succ_lt_succ hn) with h | ⟨pre₁, z, pre₂, rfl, h⟩
      · left
        rw [h]
        simp
      · right
        refine ⟨y :: pre₁, z, pre₂, rfl, ?_⟩
        rw [h]
        simp
    · right
      refine ⟨[], y, pre, rfl, ?_⟩
      rw [List.cons_append, rotateToAwake, if_neg hy]
      simp

theorem getNextThr_of_found (h : rotateToAwake (isSleeping m mem time) infos.length infos =
    (infos', some info)) : getNextThr m mem time infos = (infos', some info) := by
  unfold getNextThr
  rw [h]

theorem closestWakeup_mem (mem : Memory) : ∀ (l : List ThreadInfo) (i : Nat)
    (best : Nat × ThreadInfo × Nat),
    (closestWakeup mem l i best).2.1 = best.2.1 ∨ (closestWakeup mem l i best).2.1 ∈ l
  | [], _, _ => Or.inl rfl
  | x :: l, i, best => by
    unfold closestWakeup
    simp only []
    rcases closestWakeup_mem mem l (i + 1)
      (if (x.wakeupInfo.elim 0 fun a => (mem a).wakeupUs) < best.2.2 then
        (i, x, x.wakeupInfo.elim 0 fun a => (mem a).wakeupUs) else best) with h | h
    · rw [h]
      split_ifs
      · exact Or.inr List.mem_cons_self
      · exact Or.inl rfl
    · exact Or.inr (List.mem_cons_of_mem _ h)

/-- A thread that sleeps has a record. -/
theorem wakeupInfo_of_isSleeping (h : isSleeping m mem time info = true) :
    info.wakeupInfo ≠ none := by
  unfold isSleeping at h
  intro hn
  rw [hn] at h
  cases h

theorem all_asleep {n : Nat} (h : (rotateToAwake sleeping n infos).2 = none)
    (hn : infos.length ≤ n) : ∀ x ∈ infos, sleeping x = true := by
  intro x hx
  by_contra hx'
  obtain ⟨pre, post, rfl⟩ := List.append_of_mem hx
  rw [List.length_append, List.length_cons] at hn
  rcases rotateToAwake_found pre post n (by simpa using hx') (by omega) with h' | ⟨_, _, _, _, h'⟩
  all_goals
    rw [h'] at h
    cases h

/-- `get_next_thr` keeps the threads; what it finds is the last of them, or it is asleep. -/
theorem getNextThr_perm : (getNextThr m mem time infos).1.Perm infos ∧
    ∀ info, (getNextThr m mem time infos).2 = some info → info ∈ infos ∧
      ((∃ l, (getNextThr m mem time infos).1 = l ++ [info]) ∨ info.wakeupInfo ≠ none) := by
  obtain ⟨hperm, hfound⟩ := rotateToAwake_perm (isSleeping m mem time) infos.length
    infos
  have hasleep : _ → _ → ∀ x ∈ infos, isSleeping m mem time x = true :=
    all_asleep (n := infos.length)
  unfold getNextThr
  split
  · rename_i infos₁ info₁ heq
    rw [heq] at hperm hfound
    refine ⟨hperm, fun info h => ?_⟩
    obtain ⟨-, l, hl⟩ := hfound info h
    exact ⟨hperm.subset (hl ▸ List.mem_append_right _ List.mem_cons_self), Or.inl ⟨l, hl⟩⟩
  · rename_i infos₁ heq
    rw [heq] at hperm hasleep
    simp only [] at hperm
    split
    · exact ⟨hperm, fun _ h => by cases h⟩
    · rename_i last hlast
      refine ⟨?_, fun info h => ?_⟩
      · refine List.Perm.trans ?_ hperm
        rcases lt_or_ge (closestWakeup mem infos₁ 0 (0, last, uint64Max)).1 infos₁.length with h | h
        · simp only [List.getElem?_eq_getElem h, Option.toList_some]
          exact List.perm_append_comm.trans (List.getElem_cons_eraseIdx_perm h)
        · simp only [List.getElem?_eq_none h, List.eraseIdx_of_length_le h, Option.toList_none,
            List.append_nil]
          exact .refl _
      · cases h
        have hmem : (closestWakeup mem infos₁ 0 (0, last, uint64Max)).2.1 ∈ infos := by
          rcases closestWakeup_mem mem infos₁ 0 (0, last, uint64Max) with h | h
          · rw [h]
            exact hperm.subset (List.mem_of_getLast? hlast)
          · exact hperm.subset h
        exact ⟨hmem, Or.inr (wakeupInfo_of_isSleeping (hasleep rfl le_rfl _ hmem))⟩

/-- The threads that `get_next_thr` finds one after the other, as the machine, the memory and the time
are when it looks. -/
def picked : List (Machine × Memory × Nat) → List ThreadInfo → List ThreadInfo
  | [], _ => []
  | (m, mem, time) :: views, infos =>
    match getNextThr m mem time infos with
    | (infos, some info) => info :: picked views infos
    | (infos, none) => picked views infos

/-- A thread that is awake is found before its turn is over. -/
theorem mem_picked : ∀ (views : List (Machine × Memory × Nat)) (pre post : List ThreadInfo),
    pre.length < views.length → (∀ v ∈ views, isSleeping v.1 v.2.1 v.2.2 x = false) →
      x ∈ picked views (pre ++ x :: post)
  | [], _, _, h, _ => absurd h (Nat.not_lt_zero _)
  | (m, mem, time) :: views, pre, post, hlen, hawake => by
    have hx : isSleeping m mem time x = false := hawake (m, mem, time) List.mem_cons_self
    unfold picked
    rcases rotateToAwake_found pre post (pre ++ x :: post).length hx (by simp) with h |
      ⟨pre₁, y, pre₂, rfl, h⟩
    · rw [getNextThr_of_found h]
      exact List.mem_cons_self
    · rw [getNextThr_of_found h]
      refine List.mem_cons_of_mem _ (mem_picked views pre₂ (post ++ pre₁ ++ [y]) ?_ fun v hv =>
        hawake v (List.mem_cons_of_mem _ hv))
      simp only [List.length_append, List.length_cons] at hlen
      omega

/-! ### The queues -/

/-- The calls that are waiting for the thread, the running one first. -/
def queueOf (infos : List ThreadInfo) (t : ThreadId) : List Nat :=
  (infos.find? (·.thread = t)).elim [] (·.callQueue)

theorem queueOf_of_mem (hn : (infos.map ThreadInfo.thread).Nodup) (h : info ∈ infos) :
    queueOf infos info.thread = info.callQueue := by
  unfold queueOf
  induction infos with
  | nil => exact absurd h List.not_mem_nil
  | cons x infos ih =>
    rw [List.map_cons, List.nodup_cons] at hn
    rcases List.mem_cons.mp h with rfl | h
    · simp
    · have hne : x.thread ≠ info.thread := fun heq =>
        hn.1 (heq ▸ List.mem_map_of_mem h)
      rw [List.find?_cons_of_neg (by simpa using hne)]
      exact ih hn.2 h

theorem queueOf_of_not_mem (h : t ∉ infos.map ThreadInfo.thread) : queueOf infos t = [] := by
  unfold queueOf
  rw [List.find?_eq_none.mpr]
  · rfl
  · intro info hinfo heq
    exact h (List.mem_map.mpr ⟨info, hinfo, of_decide_eq_true heq⟩)

/-- The queues do not depend on the order of the threads. -/
theorem queueOf_perm (hn : (infos.map ThreadInfo.thread).Nodup) (h : infos'.Perm infos)
    (t : ThreadId) : queueOf infos' t = queueOf infos t := by
  by_cases ht : t ∈ infos.map ThreadInfo.thread
  · obtain ⟨info, hinfo, rfl⟩ := List.mem_map.mp ht
    rw [queueOf_of_mem hn hinfo, queueOf_of_mem ((h.map _).nodup_iff.mpr hn) (h.symm.subset hinfo)]
  · rw [queueOf_of_not_mem ht, queueOf_of_not_mem fun h' => ht ((h.map _).subset h')]

/-- The records of a thread in a history. -/
def recordsOf {α : Type} (history : List (ThreadId × α)) (t : ThreadId) : List α :=
  (history.filter (·.1 = t)).map Prod.snd

/-- The queues and records are right: each call is in its thread's queue or has finished, once and in
the order in which they were enqueued, a record is marked when its call has finished, and has its
result, and each thread that is awake is found in a round. -/
structure CallsKept (s : Scheduler) : Prop where
  order : ∀ t, (recordsOf s.finished t).map Prod.fst ++ queueOf s.roundRobin t =
    recordsOf s.enqueued t
  once : (s.finished.map fun call => call.2.1).Nodup
  marked : ∀ r, (s.records r).isDone = true ↔ ∃ t v, (t, r, v) ∈ s.finished
  result : ∀ t r v, (t, r, v) ∈ s.finished → (s.records r).returned = v
  fair : ∀ info ∈ s.roundRobin, ∀ views : List (Machine × Memory × Nat),
    views.length = s.roundRobin.length →
      (∀ v ∈ views, isSleeping v.1 v.2.1 v.2.2 info = false) → info ∈ picked views s.roundRobin

/-- What holds of the queues and records in a run. -/
structure SchedulerInv (s : Scheduler) : Prop where
  threads : (s.roundRobin.map ThreadInfo.thread).Nodup
  suspended : ∀ info ∈ s.roundRobin, info.wakeupInfo ≠ none → info.callQueue ≠ []
  running : ∀ t, s.running = some t → queueOf s.roundRobin t ≠ []
  ids : (s.enqueued.map Prod.snd).Nodup
  fresh : ∀ call ∈ s.enqueued, call.2 < s.recordCount
  order : ∀ t, (recordsOf s.finished t).map Prod.fst ++ queueOf s.roundRobin t =
    recordsOf s.enqueued t
  once : (s.finished.map fun call => call.2.1).Nodup
  marked : ∀ r, (s.records r).isDone = true ↔ ∃ t v, (t, r, v) ∈ s.finished
  result : ∀ t r v, (t, r, v) ∈ s.finished → (s.records r).returned = v

namespace SchedulerInv

theorem enqueued_of_queue (h : SchedulerInv s) (hr : r ∈ queueOf s.roundRobin t) :
    (t, r) ∈ s.enqueued := by
  have hmem : r ∈ recordsOf s.enqueued t := h.order t ▸ List.mem_append_right _ hr
  obtain ⟨call, hcall, rfl⟩ := List.mem_map.mp hmem
  obtain ⟨hcall, ht⟩ := List.mem_filter.mp hcall
  rw [← of_decide_eq_true ht]
  exact hcall

theorem enqueued_of_finished {v : Nat} (h : SchedulerInv s) (hr : (t, r, v) ∈ s.finished) :
    (t, r) ∈ s.enqueued := by
  have hmem : r ∈ recordsOf s.enqueued t := by
    rw [← h.order t]
    refine List.mem_append_left _ (List.mem_map.mpr ⟨(r, v), ?_, rfl⟩)
    exact List.mem_map.mpr ⟨(t, r, v), List.mem_filter.mpr ⟨hr, by simp⟩, rfl⟩
  obtain ⟨call, hcall, rfl⟩ := List.mem_map.mp hmem
  obtain ⟨hcall, ht⟩ := List.mem_filter.mp hcall
  rw [← of_decide_eq_true ht]
  exact hcall

theorem eq_of_enqueued (h : SchedulerInv s) (h₁ : (t, r) ∈ s.enqueued) (h₂ : (t', r) ∈ s.enqueued) :
    t = t' := by
  have := List.inj_on_of_nodup_map h.ids h₁ h₂ rfl
  exact congrArg Prod.fst this

theorem nodup_recordsOf (h : SchedulerInv s) (t : ThreadId) : (recordsOf s.enqueued t).Nodup :=
  (List.filter_sublist.map _).nodup h.ids

/-- A call that is in a queue has not finished. -/
theorem not_finished {v : Nat} (h : SchedulerInv s) (hr : r ∈ queueOf s.roundRobin t) :
    (t', r, v) ∉ s.finished := by
  intro hf
  cases h.eq_of_enqueued (h.enqueued_of_queue hr) (h.enqueued_of_finished hf)
  have hnodup := h.nodup_recordsOf t
  rw [← h.order t, List.nodup_append] at hnodup
  refine hnodup.2.2 r (List.mem_map.mpr ⟨(r, v), ?_, rfl⟩) r hr rfl
  exact List.mem_map.mpr ⟨(t, r, v), List.mem_filter.mpr ⟨hf, by simp⟩, rfl⟩

/-- The threads are changed, but not their queues. -/
theorem of_queues (h : SchedulerInv s) (hthreads : (infos.map ThreadInfo.thread).Nodup)
    (hqueue : ∀ t, queueOf infos t = queueOf s.roundRobin t)
    (hsuspended : ∀ info ∈ infos, info.wakeupInfo ≠ none → info.callQueue ≠ [])
    {running : Option ThreadId} {mem : Memory}
    (hrunning : ∀ t, running = some t → queueOf s.roundRobin t ≠ []) :
    SchedulerInv { s with roundRobin := infos, running := running, mem := mem } where
  threads := hthreads
  suspended := hsuspended
  running t ht := by
    rw [hqueue]
    exact hrunning t ht
  ids := h.ids
  fresh := h.fresh
  order t := by
    rw [hqueue]
    exact h.order t
  once := h.once
  marked := h.marked
  result := h.result

theorem callsKept (h : SchedulerInv s) : CallsKept s where
  order := h.order
  once := h.once
  marked := h.marked
  result := h.result
  fair info hinfo views hlen hawake := by
    obtain ⟨pre, post, heq⟩ := List.append_of_mem hinfo
    rw [heq] at hlen ⊢
    refine mem_picked views pre post ?_ hawake
    simp only [List.length_append, List.length_cons] at hlen
    omega

end SchedulerInv

/-! ### Operations -/

theorem map_thread_setInfo (f : ThreadInfo → ThreadInfo)
    (hf : ∀ info, (f info).thread = info.thread) :
    (s.setInfo t f).roundRobin.map ThreadInfo.thread = s.roundRobin.map ThreadInfo.thread := by
  unfold Scheduler.setInfo
  rw [List.map_map]
  refine List.map_congr_left fun info _ => ?_
  simp only [Function.comp_apply]
  split_ifs
  · exact hf info
  · rfl

theorem queueOf_setInfo (f : ThreadInfo → ThreadInfo) (hf : ∀ info, (f info).thread = info.thread)
    (hn : (s.roundRobin.map ThreadInfo.thread).Nodup) (hx : x ∈ s.roundRobin) :
    queueOf (s.setInfo t f).roundRobin x.thread =
      if x.thread = t then (f x).callQueue else x.callQueue := by
  have hmem : (if x.thread = t then f x else x) ∈ (s.setInfo t f).roundRobin :=
    List.mem_map_of_mem hx
  have hn' : ((s.setInfo t f).roundRobin.map ThreadInfo.thread).Nodup := by
    rwa [map_thread_setInfo f hf]
  split_ifs at hmem ⊢ with h
  · rw [← hf x]
    exact queueOf_of_mem hn' hmem
  · exact queueOf_of_mem hn' hmem

/-- A change of a thread's information that leaves its queue. -/
theorem queueOf_setInfo_of_eq (f : ThreadInfo → ThreadInfo)
    (hf : ∀ info, (f info).thread = info.thread ∧ (f info).callQueue = info.callQueue)
    (hn : (s.roundRobin.map ThreadInfo.thread).Nodup) (t' : ThreadId) :
    queueOf (s.setInfo t f).roundRobin t' = queueOf s.roundRobin t' := by
  by_cases ht : t' ∈ s.roundRobin.map ThreadInfo.thread
  · obtain ⟨x, hx, rfl⟩ := List.mem_map.mp ht
    rw [queueOf_setInfo f (fun info => (hf info).1) hn hx, (hf x).2, ite_self, queueOf_of_mem hn hx]
  · rw [queueOf_of_not_mem ht, queueOf_of_not_mem]
    rwa [map_thread_setInfo f fun info => (hf info).1]

/-- A thread without calls is taken out. -/
theorem queueOf_of_append {l : List ThreadInfo} (hn : ((l ++ [info]).map ThreadInfo.thread).Nodup)
    (he : info.callQueue = []) (t : ThreadId) : queueOf l t = queueOf (l ++ [info]) t := by
  rw [List.map_append, List.nodup_append] at hn
  by_cases ht : t ∈ l.map ThreadInfo.thread
  · obtain ⟨x, hx, rfl⟩ := List.mem_map.mp ht
    have hn' : ((l ++ [info]).map ThreadInfo.thread).Nodup := by
      rw [List.map_append]
      exact List.nodup_append.mpr hn
    rw [queueOf_of_mem hn.1 hx, queueOf_of_mem hn' (List.mem_append_left _ hx)]
  · rw [queueOf_of_not_mem ht]
    unfold queueOf
    have hnone : l.find? (·.thread = t) = none := by
      rw [List.find?_eq_none]
      intro x hx heq
      exact ht (List.mem_map.mpr ⟨x, hx, of_decide_eq_true heq⟩)
    rw [List.find?_append, hnone, Option.none_or, List.find?_cons]
    split
    · exact he.symm
    · rfl

/-- The scheduler no longer waits for anything on behalf of the thread. -/
def cleared (info : ThreadInfo) : ThreadInfo := { info with wakeupInfo := none }

theorem SchedulerInv.clear (h : SchedulerInv s) (t : ThreadId) :
    SchedulerInv (s.setInfo t cleared) := by
  have hf : ∀ info : ThreadInfo, (cleared info).thread = info.thread ∧
      (cleared info).callQueue = info.callQueue := fun _ => ⟨rfl, rfl⟩
  refine h.of_queues ?_ (queueOf_setInfo_of_eq cleared hf h.threads) (fun info hinfo hw => ?_) h.running
  · rw [map_thread_setInfo cleared fun info => (hf info).1]
    exact h.threads
  · obtain ⟨x, hx, rfl⟩ := List.mem_map.mp hinfo
    split_ifs at hw ⊢
    · exact absurd rfl hw
    · exact h.suspended x hx hw

theorem setInfo_of_not_mem {f : ThreadInfo → ThreadInfo}
    (h : t ∉ s.roundRobin.map ThreadInfo.thread) : s.setInfo t f = s := by
  unfold Scheduler.setInfo
  have hmap : (s.roundRobin.map fun info => if info.thread = t then f info else info) =
      s.roundRobin := by
    refine (List.map_congr_left fun info hinfo => if_neg ?_).trans (List.map_id _)
    rintro rfl
    exact h (List.mem_map_of_mem hinfo)
  rw [hmap]

/-- A step brings the threads into another order.  Then it ends, or takes out the last thread, which
has no calls, or runs a thread. -/
theorem step_cases (env : Env) (hthreads : (s.roundRobin.map ThreadInfo.thread).Nodup)
    (hsuspended : ∀ info ∈ s.roundRobin, info.wakeupInfo ≠ none → info.callQueue ≠ []) :
    ∃ infos : List ThreadInfo, infos.Perm s.roundRobin ∧
    (s.step env = { s with roundRobin := infos } ∨
    (∃ l info, infos = l ++ [info] ∧ info.callQueue = [] ∧
      s.step env = { s with roundRobin := l }) ∨
    ∃ info ∈ infos, info.callQueue ≠ [] ∧ s.step env =
      { ({ s with roundRobin := infos } : Scheduler).setInfo info.thread cleared with
        running := some info.thread }) := by
  unfold Scheduler.step
  split_ifs
  · exact ⟨s.roundRobin, .refl _, Or.inl rfl⟩
  · obtain ⟨hperm, hfound⟩ : (getNextThr env.machine s.mem env.pickTime s.roundRobin).1.Perm
      s.roundRobin ∧ _ := getNextThr_perm
    split
    · rename_i infos heq
      rw [heq] at hperm
      exact ⟨infos, hperm, Or.inl rfl⟩
    · rename_i infos info heq
      rw [heq] at hperm hfound
      obtain ⟨hinfo, hlast⟩ := hfound info rfl
      refine ⟨infos, hperm, ?_⟩
      dsimp only
      split_ifs with hsleep hempty
      · exact Or.inl rfl
      · -- the thread has no call, so it is awake, and the last one
        have hnone : info.wakeupInfo = none := by
          by_contra hne
          exact hsuspended info hinfo hne hempty
        obtain ⟨l, hl⟩ := hlast.resolve_right (not_not.mpr hnone)
        simp only [] at hl
        refine Or.inr (Or.inl ⟨l, info, hl, hempty, ?_⟩)
        have hn := (hperm.map ThreadInfo.thread).nodup_iff.mpr hthreads
        rw [hl, List.map_append, List.nodup_append] at hn
        have hout : info.thread ∉ l.map ThreadInfo.thread := fun hmem =>
          hn.2.2 _ hmem _ (by simp) rfl
        have hmap : (l.map fun x => if x.thread = info.thread then cleared x else x) = l :=
          congrArg Scheduler.roundRobin
            (setInfo_of_not_mem (s := { s with roundRobin := l }) (f := cleared) hout)
        subst hl
        unfold Scheduler.setInfo
        simp only [List.map_append, List.map_cons, List.map_nil, List.dropLast_concat]
        show ({ s with roundRobin :=
          (l.map fun x => if x.thread = info.thread then cleared x else x) } : Scheduler) = _
        rw [hmap]
      · exact Or.inr (Or.inr ⟨info, hperm.symm.subset hinfo, hempty, rfl⟩)

theorem step_inv (h : SchedulerInv s) : SchedulerInv (s.step env) := by
  obtain ⟨infos, hperm, hcases⟩ := step_cases env h.threads h.suspended
  have hn : (infos.map ThreadInfo.thread).Nodup := (hperm.map _).nodup_iff.mpr h.threads
  have hrotated : SchedulerInv { s with roundRobin := infos } :=
    h.of_queues hn (queueOf_perm h.threads hperm)
      (fun info hinfo => h.suspended info (hperm.subset hinfo)) h.running
  rcases hcases with hstep | ⟨l, info, rfl, hempty, hstep⟩ | ⟨info, hinfo, hne, hstep⟩
  · rw [hstep]
    exact hrotated
  · rw [hstep]
    refine hrotated.of_queues ?_ (queueOf_of_append hn hempty)
      (fun x hx => hrotated.suspended x (List.mem_append_left _ hx)) hrotated.running
    rw [List.map_append, List.nodup_append] at hn
    exact hn.1
  · rw [hstep]
    have hclear := hrotated.clear info.thread
    refine hclear.of_queues hclear.threads (fun _ => rfl) hclear.suspended fun t ht => ?_
    cases ht
    have hqueue := queueOf_setInfo_of_eq (s := { s with roundRobin := infos }) (t := info.thread)
      cleared (fun _ => ⟨rfl, rfl⟩) hn info.thread
    rw [queueOf_of_mem hn hinfo] at hqueue
    rw [hqueue]
    exact hne

theorem recordsOf_append {α : Type} {history : List (ThreadId × α)} {x : α} :
    recordsOf (history ++ [(t, x)]) t' =
      if t = t' then recordsOf history t' ++ [x] else recordsOf history t' := by
  unfold recordsOf
  rw [List.filter_append]
  split_ifs with h
  · simp [h]
  · simp [h]

theorem getOrCreateThreadInfo_inv (h : SchedulerInv s) :
    SchedulerInv (s.getOrCreateThreadInfo t) ∧
      t ∈ (s.getOrCreateThreadInfo t).roundRobin.map ThreadInfo.thread := by
  unfold Scheduler.getOrCreateThreadInfo
  split_ifs with hany
  · obtain ⟨info, hinfo, ht⟩ := List.any_eq_true.mp hany
    exact ⟨h, List.mem_map.mpr ⟨info, hinfo, of_decide_eq_true ht⟩⟩
  · have hnew : t ∉ s.roundRobin.map ThreadInfo.thread := fun ht => hany (by
      obtain ⟨info, hinfo, rfl⟩ := List.mem_map.mp ht
      exact List.any_eq_true.mpr ⟨info, hinfo, by simp⟩)
    have hn : ((s.roundRobin ++ [({ thread := t } : ThreadInfo)]).map ThreadInfo.thread).Nodup := by
      rw [List.map_append, List.nodup_append]
      refine ⟨h.threads, List.nodup_singleton _, ?_⟩
      rintro a ha b hb rfl
      rw [List.map_singleton, List.mem_singleton] at hb
      rw [hb] at ha
      exact hnew ha
    refine ⟨h.of_queues hn (fun t' => (queueOf_of_append hn rfl t').symm) (fun x hx hw => ?_)
      h.running, ?_⟩
    · rcases List.mem_append.mp hx with hx | hx
      · exact h.suspended x hx hw
      · rw [List.mem_singleton.mp hx] at hw
        exact absurd rfl hw
    · simp

/-- The call is put behind the others of its thread. -/
def enqueue (r : Nat) (info : ThreadInfo) : ThreadInfo :=
  { info with callQueue := info.callQueue ++ [r] }

/-- The queue of the thread gets longer. -/
theorem queueOf_enqueue (hn : (s.roundRobin.map ThreadInfo.thread).Nodup)
    (hmem : t ∈ s.roundRobin.map ThreadInfo.thread) (r : Nat) (t' : ThreadId) :
    queueOf (s.setInfo t (enqueue r)).roundRobin t' =
      if t = t' then queueOf s.roundRobin t' ++ [r] else queueOf s.roundRobin t' := by
  by_cases ht : t' ∈ s.roundRobin.map ThreadInfo.thread
  · obtain ⟨x, hx, rfl⟩ := List.mem_map.mp ht
    rw [queueOf_setInfo (enqueue _) (fun _ => rfl) hn hx, queueOf_of_mem hn hx]
    simp only [eq_comm]
    rfl
  · have hne : t ≠ t' := fun heq => ht (heq ▸ hmem)
    rw [if_neg hne, queueOf_of_not_mem ht, queueOf_of_not_mem]
    rwa [map_thread_setInfo (enqueue _) fun _ => rfl]

theorem run_inv (h : SchedulerInv s) : SchedulerInv (s.run t) := by
  obtain ⟨hinv, hmem⟩ := getOrCreateThreadInfo_inv (t := t) h
  unfold Scheduler.run
  generalize s.getOrCreateThreadInfo t = s₁ at hinv hmem
  have hqueue := queueOf_enqueue hinv.threads hmem s₁.recordCount
  have hfresh : ∀ {t v}, (t, s₁.recordCount, v) ∉ s₁.finished := fun hf =>
    absurd (hinv.fresh _ (hinv.enqueued_of_finished hf)) (Nat.lt_irrefl _)
  refine ⟨?_, fun info hinfo hw => ?_, fun t' ht => ?_, ?_, ?_, fun t' => ?_, hinv.once, fun r => ?_,
    fun t' r v hf => ?_⟩
  · show ((s₁.setInfo t (enqueue s₁.recordCount)).roundRobin.map ThreadInfo.thread).Nodup
    rw [map_thread_setInfo (enqueue _) fun _ => rfl]
    exact hinv.threads
  · obtain ⟨x, hx, rfl⟩ := List.mem_map.mp hinfo
    split_ifs at hw ⊢
    · simp
    · exact hinv.suspended x hx hw
  · have h₁ := hinv.running t' ht
    show queueOf (s₁.setInfo t (enqueue s₁.recordCount)).roundRobin t' ≠ []
    rw [hqueue]
    split_ifs
    · simp
    · exact h₁
  · show ((s₁.enqueued ++ [(t, s₁.recordCount)]).map Prod.snd).Nodup
    rw [List.map_append, List.nodup_append]
    refine ⟨hinv.ids, List.nodup_singleton _, ?_⟩
    rintro a ha b hb rfl
    obtain ⟨call, hcall, rfl⟩ := List.mem_map.mp ha
    rw [List.map_singleton, List.mem_singleton] at hb
    exact absurd (hinv.fresh call hcall) (hb ▸ Nat.lt_irrefl _)
  · intro call hcall
    rcases List.mem_append.mp hcall with hcall | hcall
    · exact (hinv.fresh call hcall).trans (Nat.lt_succ_self _)
    · rw [List.mem_singleton.mp hcall]
      exact Nat.lt_succ_self _
  · show (recordsOf s₁.finished t').map Prod.fst ++
      queueOf (s₁.setInfo t (enqueue s₁.recordCount)).roundRobin t' =
        recordsOf (s₁.enqueued ++ [(t, s₁.recordCount)]) t'
    rw [hqueue, recordsOf_append, ← hinv.order t']
    split_ifs
    · rw [List.append_assoc]
    · rfl
  · show (update s₁.records s₁.recordCount {} r).isDone = true ↔ _
    by_cases hr : r = s₁.recordCount
    · subst hr
      rw [Function.update_self]
      exact ⟨fun h => (by cases h), fun ⟨t, v, hf⟩ => absurd hf hfresh⟩
    · rw [Function.update_of_ne hr]
      exact hinv.marked r
  · show (update s₁.records s₁.recordCount {} r).returned = v
    rw [Function.update_of_ne (fun hr => hfresh (hr ▸ hf))]
    exact hinv.result t' r v hf

theorem nodup_eraseP (hn : (infos.map ThreadInfo.thread).Nodup) :
    ((infos.eraseP (·.thread = t)).map ThreadInfo.thread).Nodup :=
  (List.eraseP_sublist.map _).nodup hn

theorem not_mem_eraseP (hn : (infos.map ThreadInfo.thread).Nodup) :
    t ∉ (infos.eraseP (·.thread = t)).map ThreadInfo.thread := by
  intro ht
  by_cases hany : ∃ info ∈ infos, info.thread = t
  · obtain ⟨info, hinfo, hit⟩ := hany
    obtain ⟨a, l₁, l₂, -, ha, hl, he⟩ := List.exists_of_eraseP
      (p := (·.thread = t)) hinfo (by simpa using hit)
    rw [he] at ht
    rw [hl, List.map_append, List.map_cons, List.nodup_middle, List.nodup_cons,
      ← List.map_append] at hn
    exact hn.1 (of_decide_eq_true ha ▸ ht)
  · obtain ⟨info, hinfo, hit⟩ := List.mem_map.mp ht
    exact hany ⟨info, List.eraseP_subset hinfo, hit⟩

/-- The thread is taken out. -/
theorem queueOf_eraseP (hn : (infos.map ThreadInfo.thread).Nodup) (t' : ThreadId) :
    queueOf (infos.eraseP (·.thread = t)) t' = if t' = t then [] else queueOf infos t' := by
  split_ifs with h
  · rw [h]
    exact queueOf_of_not_mem (not_mem_eraseP hn)
  · have hn' := nodup_eraseP (t := t) hn
    by_cases ht : t' ∈ infos.map ThreadInfo.thread
    · obtain ⟨x, hx, rfl⟩ := List.mem_map.mp ht
      have hx' : x ∈ infos.eraseP (·.thread = t) :=
        (List.mem_eraseP_of_neg (by simpa using h)).mpr hx
      rw [queueOf_of_mem hn hx, queueOf_of_mem hn' hx']
    · rw [queueOf_of_not_mem ht, queueOf_of_not_mem]
      intro ht'
      obtain ⟨x, hx, rfl⟩ := List.mem_map.mp ht'
      exact ht (List.mem_map_of_mem (List.eraseP_subset hx))

/-- The first call of the thread is taken out of its queue. -/
def dequeue (info : ThreadInfo) : ThreadInfo := { info with callQueue := info.callQueue.tail }

theorem queueOf_dequeue (hn : (s.roundRobin.map ThreadInfo.thread).Nodup) (t' : ThreadId) :
    queueOf (s.setInfo t dequeue).roundRobin t' =
      if t' = t then (queueOf s.roundRobin t').tail else queueOf s.roundRobin t' := by
  by_cases ht : t' ∈ s.roundRobin.map ThreadInfo.thread
  · obtain ⟨x, hx, rfl⟩ := List.mem_map.mp ht
    rw [queueOf_setInfo dequeue (fun _ => rfl) hn hx, queueOf_of_mem hn hx]
    rfl
  · rw [queueOf_of_not_mem ht, queueOf_of_not_mem]
    · split_ifs <;> rfl
    · rwa [map_thread_setInfo dequeue fun _ => rfl]

/-- What is left of the threads when a call has finished: the others wait for the same calls. -/
theorem unshift_queues (hn : (s.roundRobin.map ThreadInfo.thread).Nodup)
    (ht : queueOf s.roundRobin t ≠ []) (obj : Object) :
    ((s.unshift t obj).roundRobin.map ThreadInfo.thread).Nodup ∧
      (∀ t', queueOf (s.unshift t obj).roundRobin t' =
        if t' = t then (queueOf s.roundRobin t').tail else queueOf s.roundRobin t') ∧
      (∀ info ∈ (s.unshift t obj).roundRobin, info.callQueue ≠ [] ∨ info ∈ s.roundRobin) ∧
      (s.unshift t obj).running = s.running ∧ (s.unshift t obj).records = s.records ∧
      (s.unshift t obj).recordCount = s.recordCount ∧
      (s.unshift t obj).enqueued = s.enqueued ∧ (s.unshift t obj).finished = s.finished := by
  have hn' : ((s.setInfo t dequeue).roundRobin.map ThreadInfo.thread).Nodup := by
    rwa [map_thread_setInfo dequeue fun _ => rfl]
  have hmem : ∀ info ∈ (s.setInfo t dequeue).roundRobin, info.thread ≠ t → info ∈ s.roundRobin := by
    intro info hinfo hne
    obtain ⟨x, hx, rfl⟩ := List.mem_map.mp hinfo
    split_ifs at hne ⊢ with h
    · exact absurd h hne
    · exact hx
  have hqueue := queueOf_dequeue (t := t) hn
  unfold Scheduler.unshift
  show _ ∧ _
  generalize hs : s.setInfo t dequeue = s₁ at hn' hmem hqueue
  have hdeq : (s.setInfo t fun info => { info with callQueue := info.callQueue.tail }) = s₁ := hs
  rw [hdeq]
  have hrest : s₁.running = s.running ∧ s₁.records = s.records ∧
      s₁.recordCount = s.recordCount ∧ s₁.enqueued = s.enqueued ∧ s₁.finished = s.finished := by
    rw [← hs]
    exact ⟨rfl, rfl, rfl, rfl, rfl⟩
  dsimp only
  cases hfind : s₁.roundRobin.find? (·.thread = t) with
  | none =>
    exfalso
    refine ht (queueOf_of_not_mem fun hmem' => ?_)
    rw [← map_thread_setInfo (t := t) dequeue fun _ => rfl, hs] at hmem'
    obtain ⟨info, hinfo, hit⟩ := List.mem_map.mp hmem'
    exact List.find?_eq_none.mp hfind info hinfo (by simpa using hit)
  | some info =>
    have hinfo : info ∈ s₁.roundRobin := List.mem_of_find?_eq_some hfind
    have hit : info.thread = t := by simpa using List.find?_some hfind
    dsimp only
    split_ifs with hempty
    · refine ⟨nodup_eraseP hn', fun t' => ?_, fun x hx => Or.inr (hmem x (List.eraseP_subset hx) ?_),
        hrest⟩
      · rw [queueOf_eraseP hn', hqueue]
        have htail : (queueOf s.roundRobin t).tail = [] := by
          have := hqueue t
          rw [if_pos rfl, ← hit, queueOf_of_mem hn' hinfo, hempty, hit] at this
          exact this.symm
        split_ifs with h
        · rw [h, htail]
        · rfl
      · rintro rfl
        exact not_mem_eraseP hn' (List.mem_map_of_mem hx)
    · refine ⟨hn', hqueue, fun x hx => ?_, hrest⟩
      by_cases hxt : x.thread = t
      · have hxi : x = info := by
          refine List.inj_on_of_nodup_map hn' hx hinfo ?_
          rw [hxt, hit]
        exact Or.inl (hxi ▸ hempty)
      · exact Or.inr (hmem x hx hxt)

/-- What is left of the queues and the records behind the first call of a thread. -/
theorem callReady_queues (r : Nat) (result : CallResult) (env : Env)
    (hn : (s.roundRobin.map ThreadInfo.thread).Nodup) (ht : queueOf s.roundRobin t ≠ []) :
    ((s.callReady t r result env).roundRobin.map ThreadInfo.thread).Nodup ∧
      (∀ t', queueOf (s.callReady t r result env).roundRobin t' =
        if t' = t then (queueOf s.roundRobin t').tail else queueOf s.roundRobin t') ∧
      (∀ info ∈ (s.callReady t r result env).roundRobin,
        info.callQueue ≠ [] ∨ info ∈ s.roundRobin) ∧
      (s.callReady t r result env).running = none ∧
      (s.callReady t r result env).records = update s.records r
        { isDone := true
          returned := result.returned
          jsHandle := if result.isReference && result.returned ≠ 0 then some result.jsHandle
            else none } ∧
      (s.callReady t r result env).recordCount = s.recordCount ∧
      (s.callReady t r result env).enqueued = s.enqueued ∧
      (s.callReady t r result env).finished = s.finished ++ [(t, r, result.returned)] := by
  unfold Scheduler.callReady
  refine unshift_queues ?_ ?_ (env.threadObj t)
  · exact hn
  · exact ht

theorem callReady_inv {result : CallResult} (h : SchedulerInv s)
    (hr : (queueOf s.roundRobin t).head? = some r) :
    SchedulerInv (s.callReady t r result env) := by
  obtain ⟨calls, hqueue⟩ := List.head?_eq_some_iff.mp hr
  have hmem : r ∈ queueOf s.roundRobin t := hqueue ▸ List.mem_cons_self
  obtain ⟨hthreads, hqueues, hinfos, hrunning, hrecords, hcount, henqueued, hfinished⟩ :=
    callReady_queues r result env h.threads (List.ne_nil_of_mem hmem)
  generalize s.callReady t r result env = s₂ at *
  have hnew : ∀ {t' v}, (t', r, v) ∉ s.finished := h.not_finished hmem
  refine ⟨hthreads, fun info hinfo hw => ?_, fun t' ht => ?_, ?_, ?_, fun t' => ?_, ?_, fun r' => ?_,
    fun t' r' v hf => ?_⟩
  · rcases hinfos info hinfo with hq | hold
    · exact hq
    · exact h.suspended info hold hw
  · rw [hrunning] at ht
    cases ht
  · rw [henqueued]
    exact h.ids
  · rw [henqueued, hcount]
    exact h.fresh
  · rw [hqueues, hfinished, henqueued, recordsOf_append, ← h.order t']
    by_cases ht : t' = t
    · subst ht
      rw [if_pos rfl, if_pos rfl, hqueue]
      simp
    · rw [if_neg ht, if_neg (Ne.symm ht)]
  · rw [hfinished, List.map_append, List.nodup_append]
    refine ⟨h.once, List.nodup_singleton _, ?_⟩
    rintro a ha b hb rfl
    obtain ⟨⟨t', r', v⟩, hf, rfl⟩ := List.mem_map.mp ha
    rw [List.map_singleton, List.mem_singleton] at hb
    simp only [] at hb
    subst hb
    exact hnew hf
  · rw [hrecords, hfinished]
    by_cases hr' : r' = r
    · subst hr'
      rw [Function.update_self]
      exact ⟨fun _ => ⟨t, result.returned, by simp⟩, fun _ => rfl⟩
    · rw [Function.update_of_ne hr', h.marked r']
      simp [hr']
  · rw [hfinished] at hf
    rw [hrecords]
    rcases List.mem_append.mp hf with hold | hf
    · rw [Function.update_of_ne (by rintro rfl; exact hnew hold)]
      exact h.result t' r' v hold
    · rw [List.mem_singleton] at hf
      cases hf
      rw [Function.update_self]

theorem callNotReady_inv {a : Addr} (h : SchedulerInv s) (hrunning : s.running = some t) :
    SchedulerInv (s.callNotReady t a) := by
  have hf : ∀ info : ThreadInfo, ({ info with wakeupInfo := some a } : ThreadInfo).thread =
      info.thread ∧ ({ info with wakeupInfo := some a } : ThreadInfo).callQueue =
        info.callQueue := fun _ => ⟨rfl, rfl⟩
  refine h.of_queues ?_ (queueOf_setInfo_of_eq _ hf h.threads) (fun info hinfo hw => ?_)
    fun t' ht => by cases ht
  · show ((s.setInfo t fun info => { info with wakeupInfo := some a }).roundRobin.map
      ThreadInfo.thread).Nodup
    rw [map_thread_setInfo _ fun info => (hf info).1]
    exact h.threads
  · obtain ⟨x, hx, rfl⟩ := List.mem_map.mp hinfo
    split_ifs at hw ⊢ with ht
    · show x.callQueue ≠ []
      rw [← queueOf_of_mem h.threads hx, ht]
      exact h.running t hrunning
    · exact h.suspended x hx hw

/-- The calls that are made immediately do not end there: there is none for the thread, or the first
one is suspended. -/
def NoneFinishesImmediately (env : Env) (s : Scheduler) : Op → Prop
  | .executeImmediately record =>
    ∀ r ∈ (queueOf s.roundRobin (s.recordThread record)).head?, env.synchronous r = none
  | _ => True

theorem executeImmediately_eq (h : NoneFinishesImmediately env s (.executeImmediately r)) :
    s.executeImmediately r env = s := by
  unfold NoneFinishesImmediately queueOf at h
  simp only [] at h
  unfold Scheduler.executeImmediately
  dsimp only
  cases hfind : s.roundRobin.find? (·.thread = s.recordThread r) with
  | none => rfl
  | some info =>
    dsimp only
    rw [hfind, Option.elim_some] at h
    cases hq : info.callQueue with
    | nil => rfl
    | cons call calls =>
      rw [hq] at h
      unfold Scheduler.executePending
      rw [h call rfl]

theorem apply_inv {op : Op} (h : SchedulerInv s) (hstep : op.apply env s = some s')
    (hop : NoneFinishesImmediately env s op) : SchedulerInv s' := by
  cases op with
  | run t =>
    simp only [Op.apply] at hstep
    split_ifs at hstep
    cases hstep
    exact run_inv h
  | step =>
    simp only [Op.apply] at hstep
    split_ifs at hstep
    cases hstep
    exact step_inv h
  | ready result =>
    simp only [Op.apply, Option.bind_eq_bind, Option.bind_eq_some_iff, Option.some.injEq] at hstep
    obtain ⟨t, -, info, hinfo, r, hr, rfl⟩ := hstep
    refine callReady_inv h ?_
    unfold queueOf
    rw [hinfo]
    exact hr
  | notReady a =>
    simp only [Op.apply, Option.map_eq_some_iff] at hstep
    obtain ⟨t, ht, rfl⟩ := hstep
    exact callNotReady_inv h ht
  | write a info =>
    cases hstep
    exact h.of_queues h.threads (fun _ => rfl) h.suspended h.running
  | executeImmediately record =>
    simp only [Op.apply] at hstep
    split_ifs at hstep
    cases hstep
    rw [executeImmediately_eq hop]
    exact h

theorem start_schedulerInv : SchedulerInv {} :=
  ⟨List.nodup_nil, fun _ h => absurd h List.not_mem_nil, fun _ h => (by cases h), List.nodup_nil,
    fun _ h => absurd h List.not_mem_nil, fun _ => rfl, List.nodup_nil,
    fun _ => ⟨fun h => (by cases h), fun ⟨_, _, h⟩ => absurd h List.not_mem_nil⟩,
    fun _ _ _ h => absurd h List.not_mem_nil⟩

/-- In every run in which no call ends where it is made immediately, the queues and records are right. -/
theorem callsKept_of_run (run : Run NoneFinishesImmediately s) : CallsKept s := by
  suffices h : SchedulerInv s from h.callsKept
  induction run with
  | start => exact start_schedulerInv
  | step env _ hstep hop ih => exact apply_inv ih hstep hop

/-- One call is enqueued, and runs to its end. -/
theorem callsKept_once : ∃ s, Run NoneFinishesImmediately s ∧ s.finished = [(1, 0, 42)] ∧
    CallsKept s := by
  obtain ⟨s₁, h₁⟩ : ∃ s, (Op.run 1).apply {} {} = some s := ⟨_, rfl⟩
  obtain ⟨s₂, h₂⟩ : ∃ s, Op.step.apply {} s₁ = some s := by
    cases h₁
    exact ⟨_, rfl⟩
  obtain ⟨s₃, h₃⟩ : ∃ s, (Op.ready ⟨42, false, 0⟩).apply {} s₂ = some s := by
    cases h₁
    cases h₂
    exact ⟨_, rfl⟩
  have run : Run NoneFinishesImmediately s₃ :=
    .step {} (.step {} (.step {} .start h₁ trivial) h₂ trivial) h₃ trivial
  refine ⟨s₃, run, ?_, callsKept_of_run run⟩
  cases h₁
  cases h₂
  cases h₃
  rfl

/-- A call that is made immediately finishes, and its record is not marked. -/
theorem immediate_not_marked : ∃ s, Run (fun _ _ _ => True) s ∧ s.finished = [(1, 0, 42)] ∧
    ¬ CallsKept s := by
  obtain ⟨s₁, h₁⟩ : ∃ s, (Op.run 1).apply {} {} = some s := ⟨_, rfl⟩
  obtain ⟨s₂, h₂⟩ : ∃ s, (Op.executeImmediately 0).apply
      { synchronous := fun _ => some ⟨42, false, 0⟩ } s₁ = some s := by
    cases h₁
    exact ⟨_, rfl⟩
  refine ⟨s₂, .step _ (.step {} .start h₁ trivial) h₂ trivial, ?_, fun h => ?_⟩
  · cases h₁
    cases h₂
    rfl
  · have hmarked := (h.marked 0).mpr
    cases h₁
    cases h₂
    cases hmarked ⟨1, 42, List.mem_cons_self⟩

end BJvm.Threads
