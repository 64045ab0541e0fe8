import BJvm.Threads.ThreadObjects
import BJvm.Proofs.RoundRobin

/-!
# Thread objects and their calls

`eetop` is cleared with the last call of a thread and is not set again when another call is enqueued.
As long as that is not done it tells which threads are alive (`eetopRight_of_run`).
-/

namespace BJvm.Threads

open Function (update)

variable {s s' : ThreadState} {env : Env} {t t' : ThreadId} {obj : Object} {op : Op}

/-! ### The queues of the scheduler -/

/-- Every thread of the scheduler is there once, and has calls. -/
structure QueuesFull (s : Scheduler) : Prop where
  threads : (s.roundRobin.map ThreadInfo.thread).Nodup
  queues : ∀ info ∈ s.roundRobin, info.callQueue ≠ []

theorem hasCalls_iff (hn : (s.scheduler.roundRobin.map ThreadInfo.thread).Nodup) :
    s.HasCalls t ↔ queueOf s.scheduler.roundRobin t ≠ [] := by
  constructor
  · rintro ⟨info, hinfo, rfl, hne⟩
    rwa [queueOf_of_mem hn hinfo]
  · intro hne
    by_cases ht : t ∈ s.scheduler.roundRobin.map ThreadInfo.thread
    · obtain ⟨info, hinfo, rfl⟩ := List.mem_map.mp ht
      exact ⟨info, hinfo, rfl, queueOf_of_mem hn hinfo ▸ hne⟩
    · exact absurd (queueOf_of_not_mem ht) hne

namespace QueuesFull

variable {s : Scheduler}

theorem mem_threads (h : QueuesFull s) :
    t ∈ s.roundRobin.map ThreadInfo.thread ↔ queueOf s.roundRobin t ≠ [] := by
  constructor
  · intro ht
    obtain ⟨info, hinfo, rfl⟩ := List.mem_map.mp ht
    rw [queueOf_of_mem h.threads hinfo]
    exact h.queues info hinfo
  · intro hne
    by_contra ht
    exact hne (queueOf_of_not_mem ht)

/-- A change of a thread's information that leaves it some calls. -/
theorem setInfo (h : QueuesFull s) {f : ThreadInfo → ThreadInfo}
    (hf : ∀ info, (f info).thread = info.thread)
    (hq : ∀ info ∈ s.roundRobin, info.thread = t → (f info).callQueue ≠ []) :
    QueuesFull (s.setInfo t f) := by
  refine ⟨?_, fun info hinfo => ?_⟩
  · rw [map_thread_setInfo f hf]
    exact h.threads
  · obtain ⟨x, hx, rfl⟩ := List.mem_map.mp hinfo
    split_ifs with ht
    · exact hq x hx ht
    · exact h.queues x hx

theorem run (h : QueuesFull s) (t : ThreadId) : QueuesFull (s.run t) ∧
    ∀ t', t' ∈ (s.run t).roundRobin.map ThreadInfo.thread ↔
      t' = t ∨ t' ∈ s.roundRobin.map ThreadInfo.thread := by
  have hcreated : ((s.getOrCreateThreadInfo t).roundRobin.map ThreadInfo.thread).Nodup ∧
      (∀ info ∈ (s.getOrCreateThreadInfo t).roundRobin, info.thread ≠ t → info.callQueue ≠ []) ∧
      ∀ t', t' ∈ (s.getOrCreateThreadInfo t).roundRobin.map ThreadInfo.thread ↔
        t' = t ∨ t' ∈ s.roundRobin.map ThreadInfo.thread := by
    unfold Scheduler.getOrCreateThreadInfo
    split_ifs with hany
    · obtain ⟨info, hinfo, ht⟩ := List.any_eq_true.mp hany
      have hmem : t ∈ s.roundRobin.map ThreadInfo.thread :=
        List.mem_map.mpr ⟨info, hinfo, of_decide_eq_true ht⟩
      refine ⟨h.threads, fun info hinfo _ => h.queues info hinfo, fun t' => ?_⟩
      exact ⟨.inr, fun ht => ht.elim (fun heq => heq ▸ hmem) id⟩
    · have hnew : t ∉ s.roundRobin.map ThreadInfo.thread := fun ht => hany (by
        obtain ⟨info, hinfo, rfl⟩ := List.mem_map.mp ht
        exact List.any_eq_true.mpr ⟨info, hinfo, by simp⟩)
      refine ⟨?_, fun info hinfo hne => ?_, fun t' => by simp [or_comm]⟩
      · rw [List.map_append, List.map_singleton]
        exact h.threads.append (List.nodup_singleton t) (by simpa using hnew)
      · rcases List.mem_append.mp hinfo with hinfo | hinfo
        · exact h.queues info hinfo
        · exact absurd (by rw [List.mem_singleton.mp hinfo]) hne
  obtain ⟨hn, hq, hthreads⟩ := hcreated
  unfold Scheduler.run
  generalize s.getOrCreateThreadInfo t = s₁ at hn hq hthreads
  have hmap := map_thread_setInfo (s := s₁) (t := t) (enqueue s₁.recordCount) fun _ => rfl
  refine ⟨⟨hmap ▸ hn, fun info hinfo => ?_⟩, fun t' => hmap ▸ hthreads t'⟩
  obtain ⟨x, hx, rfl⟩ := List.mem_map.mp hinfo
  split_ifs with ht
  · simp
  · exact hq x hx ht

theorem step (h : QueuesFull s) (env : Env) : QueuesFull (s.step env) ∧
    (∀ t, t ∈ (s.step env).roundRobin.map ThreadInfo.thread ↔
      t ∈ s.roundRobin.map ThreadInfo.thread) ∧ (s.step env).enqueued = s.enqueued := by
  obtain ⟨infos, hperm, hcases⟩ := step_cases env h.threads fun info hinfo _ => h.queues info hinfo
  have hn : (infos.map ThreadInfo.thread).Nodup := (hperm.map _).nodup_iff.mpr h.threads
  have hq : ∀ info ∈ infos, info.callQueue ≠ [] := fun info hinfo =>
    h.queues info (hperm.subset hinfo)
  have hrotated : QueuesFull { s with roundRobin := infos } := ⟨hn, hq⟩
  rcases hcases with hstep | ⟨l, info, rfl, hempty, -⟩ | ⟨info, hinfo, -, hstep⟩
  · rw [hstep]
    exact ⟨hrotated, fun t => (hperm.map _).mem_iff, rfl⟩
  · exact absurd hempty (hq info (by simp))
  · have hclear := hrotated.setInfo (t := info.thread) (f := cleared) (fun _ => rfl)
      fun x hx _ => hq x hx
    have hmap := map_thread_setInfo (s := { s with roundRobin := infos }) (t := info.thread)
      cleared fun _ => rfl
    rw [hstep]
    refine ⟨⟨hclear.threads, hclear.queues⟩, fun t => ?_, rfl⟩
    show t ∈ (({ s with roundRobin := infos } : Scheduler).setInfo info.thread
      cleared).roundRobin.map ThreadInfo.thread ↔ _
    rw [hmap]
    exact (hperm.map _).mem_iff

theorem callReady (h : QueuesFull s) (r : Nat) (result : CallResult) (env : Env)
    (ht : queueOf s.roundRobin t ≠ []) :
    QueuesFull (s.callReady t r result env) ∧
      (∀ t', queueOf (s.callReady t r result env).roundRobin t' =
        if t' = t then (queueOf s.roundRobin t').tail else queueOf s.roundRobin t') ∧
      (s.callReady t r result env).enqueued = s.enqueued := by
  obtain ⟨hn, hqueue, hinfos, -, -, -, henqueued, -⟩ := callReady_queues r result env h.threads ht
  exact ⟨⟨hn, fun info hinfo => (hinfos info hinfo).elim id (h.queues info)⟩, hqueue, henqueued⟩

/-- The loop stops before the last call, or has made all of them. -/
theorem executePending {record : Nat} {env : Env} : ∀ (calls : List Nat) {s : Scheduler},
    QueuesFull s → queueOf s.roundRobin t = calls → ¬ RunsEmpty env record calls →
    QueuesFull (s.executePending t record env calls) ∧
      (s.executePending t record env calls).roundRobin.map ThreadInfo.thread =
        s.roundRobin.map ThreadInfo.thread ∧
      (s.executePending t record env calls).enqueued = s.enqueued
  | [], s, h, _, _ => ⟨h, rfl, rfl⟩
  | call :: calls, s, h, hqueue, hruns => by
    rw [Scheduler.executePending]
    rcases hsync : env.synchronous call with _ | result
    · exact ⟨h, rfl, rfl⟩
    · have hcalls : calls ≠ [] := by
        rintro rfl
        exact hruns ⟨by simp, by simp [hsync], by simp⟩
      have htail : QueuesFull (s.setInfo t dequeue) := by
        refine h.setInfo (fun _ => rfl) fun info hinfo ht => ?_
        rw [← ht, queueOf_of_mem h.threads hinfo] at hqueue
        rwa [dequeue, hqueue]
      have hmap := map_thread_setInfo (s := s) (t := t) dequeue fun _ => rfl
      dsimp only
      split_ifs with hhead
      · exact ⟨⟨htail.threads, htail.queues⟩, hmap, rfl⟩
      · have hqueue' : queueOf (s.setInfo t dequeue).roundRobin t = calls := by
          rw [queueOf_dequeue h.threads, if_pos rfl, hqueue, List.tail_cons]
        have hrest : ¬ RunsEmpty env record calls := fun hempty => hruns (by
          refine ⟨by simp, fun c hc => ?_, fun hmem => ?_⟩
          · rcases List.mem_cons.mp hc with rfl | hc
            · rw [hsync]
              rfl
            · exact hempty.2.1 c hc
          · obtain ⟨c, cs, rfl⟩ := List.exists_cons_of_ne_nil hcalls
            rcases List.mem_cons.mp hmem with rfl | hmem
            · exact hhead rfl
            · exact hempty.2.2 hmem)
        obtain ⟨hfull, hthreads, henq⟩ := executePending calls
          (s := { s.setInfo t dequeue with finished := s.finished ++ [(t, call, result.returned)] })
          ⟨htail.threads, htail.queues⟩ hqueue' hrest
        exact ⟨hfull, hthreads.trans hmap, henq⟩

end QueuesFull

/-! ### Steps -/

/-- The field tells which threads are alive, and the threads are known. -/
structure ThreadInv (s : ThreadState) : Prop extends EetopRight s where
  full : QueuesFull s.scheduler
  bounded : ∀ t ∈ s.scheduler.roundRobin.map ThreadInfo.thread, t < s.threadCount
  mains : ∀ t ∈ s.mains, t < s.threadCount
  known : ∀ call ∈ s.scheduler.enqueued, call.1 < s.threadCount
  entered : ∀ t ∈ s.scheduler.roundRobin.map ThreadInfo.thread, ∃ r, (t, r) ∈ s.scheduler.enqueued

theorem start_threadInv : ThreadInv {} where
  alive _ := ⟨fun h => Bool.noConfusion h, fun ⟨_, _, h⟩ => h.elim
    (fun ⟨_, hinfo, _⟩ => absurd hinfo List.not_mem_nil) fun hu => absurd hu.1 List.not_mem_nil⟩
  names _ _ h := by cases h
  full := ⟨List.nodup_nil, fun _ h => absurd h List.not_mem_nil⟩
  bounded _ h := absurd h List.not_mem_nil
  mains _ h := absurd h List.not_mem_nil
  known _ h := absurd h List.not_mem_nil
  entered _ h := absurd h List.not_mem_nil

namespace ThreadInv

theorem hasCalls_iff_mem (h : QueuesFull s.scheduler) :
    s.HasCalls t ↔ t ∈ s.scheduler.roundRobin.map ThreadInfo.thread := by
  rw [hasCalls_iff h.threads, h.mem_threads]

theorem alive_lt (h : ThreadInv s) (ht : s.Alive t) : t < s.threadCount :=
  ht.elim (fun hc => h.bounded t ((hasCalls_iff_mem h.full).mp hc)) fun hu => h.mains t hu.1

/-- An operation of the scheduler that leaves the same threads with calls. -/
theorem keep (h : ThreadInv s) {sched : Scheduler} (hfull : QueuesFull sched)
    (hthreads : ∀ t, t ∈ sched.roundRobin.map ThreadInfo.thread ↔
      t ∈ s.scheduler.roundRobin.map ThreadInfo.thread)
    (henq : sched.enqueued = s.scheduler.enqueued) :
    ThreadInv { s with scheduler := sched } := by
  have halive : ∀ t, ({ s with scheduler := sched } : ThreadState).Alive t ↔ s.Alive t := fun t => by
    refine or_congr ?_ ?_
    · rw [hasCalls_iff_mem hfull, hasCalls_iff_mem h.full, hthreads]
    · simp only [ThreadState.Unused, henq]
  refine ⟨⟨fun obj => ?_, fun obj t ht => ?_⟩, hfull, fun t ht => h.bounded t ((hthreads t).mp ht),
    h.mains, henq ▸ h.known, fun t ht => henq ▸ h.entered t ((hthreads t).mp ht)⟩
  · simp only [halive]
    exact h.alive obj
  · rw [halive]
    exact h.names obj t ht

theorem run_enqueued (s : Scheduler) (t : ThreadId) :
    (s.run t).enqueued = s.enqueued ++ [(t, s.recordCount)] := by
  unfold Scheduler.run Scheduler.getOrCreateThreadInfo
  split_ifs <;> rfl

/-- One more thread is alive when a call is enqueued for it. -/
theorem alive_run (h : ThreadInv s) (hs : s'.scheduler = s.scheduler.run t)
    (hmains : s'.mains = s.mains) : s'.Alive t' ↔ t' = t ∨ s.Alive t' := by
  obtain ⟨hfull, hthreads⟩ := h.full.run t
  rw [ThreadState.Alive, ThreadState.Alive, hasCalls_iff_mem (hs ▸ hfull), hs, hthreads,
    hasCalls_iff_mem h.full, or_assoc]
  refine or_congr_right' fun hne => or_congr_right ?_
  simp only [ThreadState.Unused, hmains, hs, run_enqueued, List.mem_append, List.mem_singleton,
    Prod.mk.injEq, hne, false_and, or_false]

theorem run (h : ThreadInv s) (ht : t < s.threadCount) (hset : (s.eetop (s.threadObj t)).isSome) :
    ThreadInv { s with scheduler := s.scheduler.run t } := by
  obtain ⟨hfull, hthreads⟩ := h.full.run t
  have halive : ∀ t', ({ s with scheduler := s.scheduler.run t } : ThreadState).Alive t' ↔
      t' = t ∨ s.Alive t' := fun t' => h.alive_run rfl rfl
  refine ⟨⟨fun obj => ?_, fun obj t' ht' => ?_⟩, hfull, fun t' ht' => ?_, h.mains, fun call hc => ?_,
    fun t' ht' => ?_⟩
  · simp only [halive]
    refine ⟨fun ho => ?_, fun ⟨t', hobj, ha⟩ => ?_⟩
    · obtain ⟨t', hobj, ha⟩ := (h.alive obj).mp ho
      exact ⟨t', hobj, .inr ha⟩
    · rcases ha with rfl | ha
      · exact hobj ▸ hset
      · exact (h.alive obj).mpr ⟨t', hobj, ha⟩
  · rw [halive]
    exact (h.names obj t' ht').imp_right .inr
  · rcases (hthreads t').mp ht' with rfl | hmem
    · exact ht
    · exact h.bounded t' hmem
  · simp only [run_enqueued, List.mem_append, List.mem_singleton] at hc
    rcases hc with hc | rfl
    · exact h.known call hc
    · exact ht
  · simp only [run_enqueued, List.mem_append, List.mem_singleton]
    rcases (hthreads t').mp ht' with rfl | hmem
    · exact ⟨_, .inr rfl⟩
    · obtain ⟨r, hr⟩ := h.entered t' hmem
      exact ⟨r, .inl hr⟩

/-- A thread is made, and it is alive. -/
theorem right_made (h : ThreadInv s) (hobj : s'.threadObj = update s.threadObj s.threadCount obj)
    (heetop : s'.eetop = update s.eetop obj (some s.threadCount))
    (halive : ∀ t, s'.Alive t ↔ t = s.threadCount ∨ s.Alive t) : EetopRight s' := by
  have hold : ∀ t, s.Alive t → s'.threadObj t = s.threadObj t := fun t ht => by
    rw [hobj, Function.update_of_ne (Nat.ne_of_lt (h.alive_lt ht))]
  have hnew : s'.threadObj s.threadCount = obj := by rw [hobj, Function.update_self]
  refine ⟨fun o => ?_, fun o t ht => ?_⟩ <;> by_cases ho : o = obj
  · rw [ho, heetop, Function.update_self]
    exact ⟨fun _ => ⟨_, hnew, (halive _).mpr (.inl rfl)⟩, fun _ => rfl⟩
  · rw [heetop, Function.update_of_ne ho, h.alive o]
    refine ⟨fun ⟨t, hto, ha⟩ => ⟨t, (hold t ha).trans hto, (halive t).mpr (.inr ha)⟩,
      fun ⟨t, hto, ha⟩ => ?_⟩
    rcases (halive t).mp ha with rfl | ha
    · exact absurd (hto.symm.trans hnew) ho
    · exact ⟨t, (hold t ha).symm.trans hto, ha⟩
  · rw [heetop, ho, Function.update_self, Option.some.injEq] at ht
    rw [← ht, ho]
    exact ⟨hnew, (halive _).mpr (.inl rfl)⟩
  · rw [heetop, Function.update_of_ne ho] at ht
    obtain ⟨hto, ha⟩ := h.names o t ht
    exact ⟨(hold t ha).trans hto, (halive t).mpr (.inr ha)⟩

theorem start0 (h : ThreadInv s) (obj : Object) : ThreadInv (s.start0 obj) := by
  obtain ⟨hfull, hthreads⟩ := h.full.run s.threadCount
  have hright : EetopRight (s.start0 obj) := h.right_made rfl rfl fun t => h.alive_run rfl rfl
  refine ⟨hright, hfull, fun t ht => ?_, fun t ht => (h.mains t ht).trans (Nat.lt_succ_self _),
    fun call hc => ?_, fun t ht => ?_⟩
  · rcases (hthreads t).mp ht with rfl | hmem
    · exact Nat.lt_succ_self _
    · exact (h.bounded t hmem).trans (Nat.lt_succ_self _)
  · simp only [ThreadState.start0, run_enqueued, List.mem_append, List.mem_singleton] at hc
    rcases hc with hc | rfl
    · exact (h.known call hc).trans (Nat.lt_succ_self _)
    · exact Nat.lt_succ_self _
  · simp only [ThreadState.start0, run_enqueued, List.mem_append, List.mem_singleton]
    rcases (hthreads t).mp ht with rfl | hmem
    · exact ⟨_, .inr rfl⟩
    · obtain ⟨r, hr⟩ := h.entered t hmem
      exact ⟨r, .inl hr⟩

theorem createMainThread (h : ThreadInv s) (obj : Object) : ThreadInv (s.createMainThread obj) := by
  have hright : EetopRight (s.createMainThread obj) := h.right_made rfl rfl fun t => by
    simp only [ThreadState.Alive, ThreadState.Unused, ThreadState.HasCalls,
      ThreadState.createMainThread, ThreadState.makeThread, List.mem_cons]
    have hnew : t = s.threadCount → ∀ r, (t, r) ∉ s.scheduler.enqueued := fun ht r hr =>
      absurd (h.known _ hr) (by simp [ht])
    rw [or_and_right, and_iff_left_of_imp hnew, or_left_comm]
  refine ⟨hright, h.full, fun t ht => (h.bounded t ht).trans (Nat.lt_succ_self _), fun t ht => ?_,
    fun call hc => (h.known call hc).trans (Nat.lt_succ_self _), h.entered⟩
  rcases List.mem_cons.mp ht with rfl | ht
  · exact Nat.lt_succ_self _
  · exact (h.mains t ht).trans (Nat.lt_succ_self _)

theorem freesThreadInfo_iff (ht : queueOf s.scheduler.roundRobin t ≠ []) :
    s.scheduler.freesThreadInfo t = true ↔ (queueOf s.scheduler.roundRobin t).tail = [] := by
  unfold queueOf at ht
  unfold Scheduler.freesThreadInfo queueOf
  rcases h : s.scheduler.roundRobin.find? (·.thread = t) with _ | info
  · rw [h] at ht
    exact absurd rfl ht
  · rw [h]
    exact decide_eq_true_iff

/-- A call finishes; with the last one of a thread the thread is no longer alive. -/
theorem ready (h : ThreadInv s) (r : Nat) (result : CallResult) (env : Env)
    (ht : queueOf s.scheduler.roundRobin t ≠ [])
    (hcond : s.scheduler.freesThreadInfo t → ∀ t', s.Alive t' → s.threadObj t' = s.threadObj t →
      t' = t) :
    ThreadInv { s with scheduler := s.scheduler.callReady t r result env, eetop := s.eetopReady t } := by
  obtain ⟨hfull, hqueue, henq⟩ := h.full.callReady r result env ht
  have hthreads : ∀ t', t' ∈ (s.scheduler.callReady t r result env).roundRobin.map
      ThreadInfo.thread ↔ t' ∈ s.scheduler.roundRobin.map ThreadInfo.thread ∧
        (t' = t → (queueOf s.scheduler.roundRobin t).tail ≠ []) := fun t' => by
    rw [hfull.mem_threads, hqueue, h.full.mem_threads]
    by_cases heq : t' = t
    · simp only [heq, if_true, true_imp_iff]
      exact ⟨fun hne => ⟨ht, hne⟩, fun hne => hne.2⟩
    · simp [heq]
  by_cases hfree : s.scheduler.freesThreadInfo t = true
  · have htail := (freesThreadInfo_iff ht).mp hfree
    have heetop : s.eetopReady t = update s.eetop (s.threadObj t) none := if_pos hfree
    obtain ⟨r₀, hr₀⟩ := h.entered t (h.full.mem_threads.mpr ht)
    rw [heetop]
    have halive : ∀ t', ({ s with
        scheduler := s.scheduler.callReady t r result env
        eetop := update s.eetop (s.threadObj t) none } : ThreadState).Alive t' ↔
          t' ≠ t ∧ s.Alive t' := fun t' => by
      rw [ThreadState.Alive, ThreadState.Alive, hasCalls_iff_mem hfull, hasCalls_iff_mem h.full,
        hthreads]
      simp only [ThreadState.Unused, henq, htail]
      by_cases heq : t' = t
      · simp only [heq, ne_eq, not_true_eq_false, false_and, iff_false, not_or, not_and]
        exact ⟨fun _ hne => hne trivial, fun _ hno => hno r₀ hr₀⟩
      · simp [heq]
    refine ⟨⟨fun obj => ?_, fun obj t' ht' => ?_⟩, hfull, fun t' ht' => h.bounded t'
      ((hthreads t').mp ht').1, h.mains, henq ▸ h.known, fun t' ht' => henq ▸ h.entered t'
      ((hthreads t').mp ht').1⟩
    · simp only [halive]
      by_cases hobj : obj = s.threadObj t
      · rw [hobj, Function.update_self]
        exact ⟨fun hn => Bool.noConfusion hn, fun ⟨t', ho, hne, ha⟩ =>
          absurd (hcond hfree t' ha ho) hne⟩
      · rw [Function.update_of_ne hobj, h.alive obj]
        refine ⟨fun ⟨t', ho, ha⟩ => ⟨t', ho, fun heq => hobj (heq ▸ ho.symm), ha⟩,
          fun ⟨t', ho, _, ha⟩ => ⟨t', ho, ha⟩⟩
    · have hobj : obj ≠ s.threadObj t := fun heq => by
        simp only [heq, Function.update_self] at ht'
        cases ht'
      simp only [Function.update_of_ne hobj] at ht'
      obtain ⟨ho, ha⟩ := h.names obj t' ht'
      exact ⟨ho, (halive t').mpr ⟨fun heq => hobj (heq ▸ ho.symm), ha⟩⟩
  · have heetop : s.eetopReady t = s.eetop := if_neg hfree
    have htail := (freesThreadInfo_iff ht).not.mp hfree
    rw [heetop]
    exact h.keep hfull (fun t' => (hthreads t').trans (and_iff_left fun _ => htail)) henq

theorem apply (h : ThreadInv s) {op : ThreadOp} (hstep : op.apply env s = some s')
    (hop : KeepsEetop env s op) : ThreadInv s' := by
  cases op with
  | createMainThread obj =>
    simp only [ThreadOp.apply] at hstep
    split_ifs at hstep
    cases hstep
    exact h.createMainThread obj
  | start0 obj =>
    cases hstep
    exact h.start0 obj
  | scheduler op =>
    simp only [ThreadOp.apply] at hstep
    split_ifs at hstep with hfor
    obtain ⟨sched, hsched, rfl⟩ := Option.map_eq_some_iff.mp hstep
    cases op with
    | run t =>
      simp only [Op.apply] at hsched
      split_ifs at hsched
      cases hsched
      exact h.run (of_decide_eq_true hfor) hop
    | step =>
      simp only [Op.apply] at hsched
      split_ifs at hsched
      cases hsched
      obtain ⟨hfull, hthreads, henq⟩ := h.full.step { env with threadObj := s.threadObj }
      exact h.keep hfull hthreads henq
    | ready result =>
      simp only [Op.apply, Option.bind_eq_bind, Option.bind_eq_some_iff] at hsched
      obtain ⟨t, hrunning, info, hinfo, r, hr, hsched⟩ := hsched
      cases hsched
      have hqueue : queueOf s.scheduler.roundRobin t ≠ [] := by
        rw [queueOf, hinfo]
        exact fun hnil => by simp_all
      have := h.ready r result { env with threadObj := s.threadObj } hqueue (hop t hrunning)
      simpa [ThreadState.eetopAfter, hrunning] using this
    | notReady wakeup =>
      obtain ⟨t, -, rfl⟩ := Option.map_eq_some_iff.mp hsched
      have hset := h.full.setInfo (t := t) (f := fun info => { info with wakeupInfo := some wakeup })
        (fun _ => rfl) fun info hinfo _ => h.full.queues info hinfo
      refine h.keep ⟨hset.threads, hset.queues⟩ (fun t' => ?_) rfl
      rw [← map_thread_setInfo (s := s.scheduler) (t := t)
        (fun info => { info with wakeupInfo := some wakeup }) fun _ => rfl]
      rfl
    | write a info =>
      cases hsched
      exact h.keep ⟨h.full.threads, h.full.queues⟩ (fun _ => Iff.rfl) rfl
    | executeImmediately record =>
      simp only [Op.apply] at hsched
      split_ifs at hsched
      cases hsched
      have hkeep : QueuesFull (s.scheduler.executeImmediately record
          { env with threadObj := s.threadObj }) ∧
          (s.scheduler.executeImmediately record
            { env with threadObj := s.threadObj }).roundRobin.map ThreadInfo.thread =
            s.scheduler.roundRobin.map ThreadInfo.thread ∧
          (s.scheduler.executeImmediately record
            { env with threadObj := s.threadObj }).enqueued = s.scheduler.enqueued := by
        rw [Scheduler.executeImmediately]
        split
        · rename_i info hinfo
          have hmem := List.mem_of_find?_eq_some hinfo
          have hthread : info.thread = s.scheduler.recordThread record := by
            simpa using List.find?_some hinfo
          refine h.full.executePending info.callQueue ?_ fun hruns => hop info hmem hthread hruns
          rw [← hthread, queueOf_of_mem h.full.threads hmem]
        · exact ⟨h.full, rfl, rfl⟩
      obtain ⟨hfull, hthreads, henq⟩ := hkeep
      exact h.keep hfull (fun t => by rw [hthreads]) henq

end ThreadInv

/-! ### Runs -/

/-- In every run that enqueues calls only for threads whose `eetop` is set, that ends a thread only
when no other one is alive for its object, and that leaves no thread without calls, `eetop` tells
which threads are alive. -/
theorem eetopRight_of_run (run : ThreadRun KeepsEetop s) : EetopRight s := by
  suffices h : ThreadInv s from h.toEetopRight
  induction run with
  | start => exact start_threadInv
  | step env _ hstep hop ih => exact ih.apply hstep hop

theorem ThreadRun.next {P : Env → ThreadState → ThreadOp → Prop} (run : ThreadRun P s) (env : Env)
    (op : ThreadOp) (h : (op.apply env s).isSome) (hop : P env s op) :
    ThreadRun P ((op.apply env s).get h) :=
  .step env run (Option.some_get h).symm hop

/-- A main thread starts another, which runs to its end. -/
theorem eetopRight_started : ∃ s, ThreadRun KeepsEetop s ∧ s.eetop 8 = some 0 ∧
    s.eetop 16 = none ∧ EetopRight s := by
  have r₁ := (ThreadRun.start : ThreadRun KeepsEetop {}).next {} (.createMainThread 8) rfl trivial
  have r₂ := r₁.next {} (.scheduler (.run 0)) rfl rfl
  have r₃ := r₂.next {} (.start0 16) rfl trivial
  have r₄ := r₃.next {} (.scheduler .step) rfl trivial
  have r₅ := r₄.next {} (.scheduler (.notReady 24)) rfl trivial
  have r₆ := r₅.next {} (.scheduler .step) rfl trivial
  have r₇ := r₆.next {} (.scheduler (.ready ⟨0, false, 0⟩)) rfl fun t ht _ t' _ hobj => by
    have hobj : update (update (fun _ => 0) 0 8) 1 16 t' =
        update (update (fun _ => 0) 0 8) 1 16 t := hobj
    have ht : some 1 = some t := ht
    cases ht
    by_contra hne
    by_cases h0 : t' = 0 <;> simp [h0, hne] at hobj
  exact ⟨_, r₇, rfl, rfl, eetopRight_of_run r₇⟩

/-- A second call on a main thread whose first one has finished. -/
theorem second_call_not_alive : ∃ s, ThreadRun (fun _ _ _ => True) s ∧ s.HasCalls 0 ∧
    s.eetop (s.threadObj 0) = none ∧ ¬ EetopRight s := by
  have r₁ := (ThreadRun.start : ThreadRun (fun _ _ _ => True) {}).next {} (.createMainThread 8)
    rfl trivial
  have r₂ := r₁.next {} (.scheduler (.run 0)) rfl trivial
  have r₃ := r₂.next {} (.scheduler .step) rfl trivial
  have r₄ := r₃.next {} (.scheduler (.ready ⟨0, false, 0⟩)) rfl trivial
  have r₅ := r₄.next {} (.scheduler (.run 0)) rfl trivial
  have hmem : ({ thread := 0, callQueue := [1] } : ThreadInfo) ∈
      [({ thread := 0, callQueue := [1] } : ThreadInfo)] := List.mem_cons_self
  refine ⟨_, r₅, ⟨_, hmem, rfl, by decide⟩, rfl, fun h => ?_⟩
  have hset := (h.alive 8).mpr ⟨0, rfl, .inl ⟨_, hmem, rfl, by decide⟩⟩
  cases hset

end BJvm.Threads
