import BJvm.Proofs.JsHandles
import BJvm.Proofs.RoundRobin

/-!
# Calls that are made immediately

What `rr_scheduler_execute_immediately` does to the queue of a thread and to the records in it.
-/

namespace BJvm.Threads

open Function (update)

variable {s s' : Scheduler} {env : Env} {t : ThreadId} {record : Nat} {info : ThreadInfo}

/-- The loop reads the record of a call that is not in the queue any more: nothing has moved to where
it was. -/
def readsRemoved (record : Nat) (env : Env) : List Nat → Bool
  | [] => false
  | call :: calls =>
    match env.synchronous call with
    | none => false
    | some _ => calls.isEmpty || (calls.headD call ≠ record && readsRemoved record env calls)

/-- The calls that the loop completes. -/
def completedCalls (record : Nat) (env : Env) : List Nat → List (Nat × CallResult)
  | [] => []
  | call :: calls =>
    match env.synchronous call with
    | none => []
    | some result =>
      (call, result) :: if calls.headD call = record then [] else completedCalls record env calls

/-- What is asked of `rr_scheduler_execute_immediately`: the calls up to the record end, one after the
other, their records are marked with their results, and nothing else changes. -/
structure ExecutesUpTo (env : Env) (s s' : Scheduler) (record : Nat) (pre post : List Nat)
    (results : List CallResult) : Prop where
  queue : queueOf s.roundRobin (s.recordThread record) = pre ++ record :: post
  ends : (pre ++ [record]).map env.synchronous = results.map some
  runs : s'.finished = s.finished ++ ((pre ++ [record]).zip results).map fun call =>
    (s.recordThread record, call.1, call.2.returned)
  marks : ∀ call ∈ (pre ++ [record]).zip results, s'.records call.1 =
    { isDone := true
      returned := call.2.returned
      jsHandle := if call.2.isReference && call.2.returned ≠ 0 then some call.2.jsHandle else none }
  others : ∀ r ∉ pre ++ [record], s'.records r = s.records r
  leaves : queueOf s'.roundRobin (s.recordThread record) = post
  threads : ∀ t ≠ s.recordThread record, queueOf s'.roundRobin t = queueOf s.roundRobin t
  reads : readsRemoved record env (pre ++ record :: post) = false

/-! ### Pending calls -/

/-- A call that is in a queue is in no other, and its record is not marked. -/
structure CallsPending (s : Scheduler) : Prop where
  threads : (s.roundRobin.map ThreadInfo.thread).Nodup
  distinct : ∀ t, (queueOf s.roundRobin t).Nodup
  owner : ∀ t, ∀ r ∈ queueOf s.roundRobin t, s.recordThread r = t
  bounded : ∀ t, ∀ r ∈ queueOf s.roundRobin t, r < s.recordCount
  waiting : ∀ t, ∀ r ∈ queueOf s.roundRobin t, (s.records r).isDone = false

namespace CallsPending

/-- Calls are only taken out of queues. -/
theorem of_sublist (h : CallsPending s) (hthreads : (s'.roundRobin.map ThreadInfo.thread).Nodup)
    (hqueue : ∀ t, (queueOf s'.roundRobin t).Sublist (queueOf s.roundRobin t))
    (hrecords : s'.records = s.records) (hcount : s'.recordCount = s.recordCount)
    (howner : s'.recordThread = s.recordThread) : CallsPending s' where
  threads := hthreads
  distinct t := (hqueue t).nodup (h.distinct t)
  owner t r hr := howner ▸ h.owner t r ((hqueue t).subset hr)
  bounded t r hr := hcount ▸ h.bounded t r ((hqueue t).subset hr)
  waiting t r hr := hrecords ▸ h.waiting t r ((hqueue t).subset hr)

end CallsPending

theorem queueOf_sublist {infos infos' : List ThreadInfo}
    (hn : (infos.map ThreadInfo.thread).Nodup) (h : infos'.Sublist infos) (t : ThreadId) :
    (queueOf infos' t).Sublist (queueOf infos t) := by
  by_cases ht : t ∈ infos'.map ThreadInfo.thread
  · obtain ⟨x, hx, rfl⟩ := List.mem_map.mp ht
    rw [queueOf_of_mem ((h.map _).nodup hn) hx, queueOf_of_mem hn (h.subset hx)]
  · rw [queueOf_of_not_mem ht]
    exact List.nil_sublist _

theorem step_queues (env : Env) (hn : (s.roundRobin.map ThreadInfo.thread).Nodup) :
    ((s.step env).roundRobin.map ThreadInfo.thread).Nodup ∧
      (∀ t, (queueOf (s.step env).roundRobin t).Sublist (queueOf s.roundRobin t)) ∧
      (s.step env).recordCount = s.recordCount ∧ (s.step env).recordThread = s.recordThread := by
  unfold Scheduler.step
  split_ifs
  · exact ⟨hn, fun _ => .refl _, rfl, rfl⟩
  obtain ⟨hperm, -⟩ : (getNextThr env.machine s.mem env.pickTime s.roundRobin).1.Perm
    s.roundRobin ∧ _ := getNextThr_perm
  rcases heq : getNextThr env.machine s.mem env.pickTime s.roundRobin with ⟨infos, _ | info⟩
  all_goals
    rw [heq] at hperm
    have hn' := (hperm.map ThreadInfo.thread).nodup_iff.mpr hn
    have hq := queueOf_perm hn hperm
    dsimp only at hn' hq ⊢
  · exact ⟨hn', fun t => (hq t).symm ▸ .refl _, rfl, rfl⟩
  · have hq' : ∀ t, queueOf (({ s with roundRobin := infos } : Scheduler).setInfo info.thread
        cleared).roundRobin t = queueOf s.roundRobin t := fun t => by
      rw [queueOf_setInfo_of_eq cleared (fun _ => ⟨rfl, rfl⟩) hn', hq]
    have hcleared : ((({ s with roundRobin := infos } : Scheduler).setInfo info.thread
        cleared).roundRobin.map ThreadInfo.thread).Nodup := by
      rwa [map_thread_setInfo cleared fun _ => rfl]
    split_ifs
    · exact ⟨hn', fun t => (hq t).symm ▸ .refl _, rfl, rfl⟩
    · exact ⟨((List.dropLast_sublist _).map _).nodup hcleared, fun t =>
        (hq' t) ▸ queueOf_sublist hcleared (List.dropLast_sublist _) t, rfl, rfl⟩
    · exact ⟨hcleared, fun t => (hq' t).symm ▸ .refl _, rfl, rfl⟩

/-- The loop of `rr_scheduler_execute_immediately` takes out the calls that it completes. -/
theorem executePending_queues (t : ThreadId) (record : Nat) (env : Env) : ∀ {calls : List Nat}
    {s : Scheduler}, (s.roundRobin.map ThreadInfo.thread).Nodup → queueOf s.roundRobin t = calls →
    ((s.executePending t record env calls).roundRobin.map ThreadInfo.thread).Nodup ∧
      (∀ t', queueOf (s.executePending t record env calls).roundRobin t' =
        if t' = t then calls.drop (completedCalls record env calls).length
        else queueOf s.roundRobin t') ∧
      (s.executePending t record env calls).recordCount = s.recordCount ∧
      (s.executePending t record env calls).recordThread = s.recordThread ∧
      (s.executePending t record env calls).finished = s.finished ++
        (completedCalls record env calls).map fun call => (t, call.1, call.2.returned)
  | [], s, hn, hq => by
    refine ⟨hn, fun t' => ?_, rfl, rfl, by simp [Scheduler.executePending, completedCalls]⟩
    split_ifs with h
    · rw [h]
      exact hq
    · rfl
  | call :: calls, s, hn, hq => by
    rw [Scheduler.executePending, completedCalls]
    rcases hsync : env.synchronous call with _ | result
    · dsimp only
      refine ⟨hn, fun t' => ?_, rfl, rfl, by simp⟩
      split_ifs with h
      · rw [h]
        exact hq
      · rfl
    · have hn' : ((s.setInfo t dequeue).roundRobin.map ThreadInfo.thread).Nodup := by
        rwa [map_thread_setInfo dequeue fun _ => rfl]
      have hq' : ∀ t', queueOf (s.setInfo t dequeue).roundRobin t' =
          if t' = t then calls else queueOf s.roundRobin t' := fun t' => by
        rw [queueOf_dequeue hn]
        split_ifs with h
        · rw [h, hq, List.tail_cons]
        · rfl
      dsimp only
      split_ifs with hhead
      · exact ⟨hn', hq', rfl, rfl, by simp⟩
      · have hqt : queueOf (s.setInfo t dequeue).roundRobin t = calls := by
          rw [hq', if_pos rfl]
        obtain ⟨hn₂, hq₂, hc, ho, hf⟩ := executePending_queues t record env
          (s := { s.setInfo t dequeue with finished := s.finished ++ [(t, call, result.returned)] })
          hn' hqt
        refine ⟨hn₂, fun t' => ?_, hc, ho, ?_⟩
        · refine (hq₂ t').trans ?_
          split_ifs with h
          · rfl
          · exact (hq' t').trans (if_neg h)
        · refine hf.trans ?_
          simp

theorem executeImmediately_queues (hn : (s.roundRobin.map ThreadInfo.thread).Nodup)
    (record : Nat) (env : Env) :
    ((s.executeImmediately record env).roundRobin.map ThreadInfo.thread).Nodup ∧
      (∀ t', queueOf (s.executeImmediately record env).roundRobin t' =
        if t' = s.recordThread record then
          (queueOf s.roundRobin t').drop
            (completedCalls record env (queueOf s.roundRobin t')).length
        else queueOf s.roundRobin t') ∧
      (s.executeImmediately record env).recordCount = s.recordCount ∧
      (s.executeImmediately record env).recordThread = s.recordThread ∧
      (s.executeImmediately record env).records = s.records ∧
      (s.executeImmediately record env).finished = s.finished ++
        (completedCalls record env (queueOf s.roundRobin (s.recordThread record))).map
          fun call => (s.recordThread record, call.1, call.2.returned) := by
  rcases hfind : s.roundRobin.find? (·.thread = s.recordThread record) with _ | info
  · have heq : s.executeImmediately record env = s := by
      simp only [Scheduler.executeImmediately, hfind]
    rw [heq]
    have hempty : queueOf s.roundRobin (s.recordThread record) = [] := by
      rw [queueOf, hfind]
      rfl
    refine ⟨hn, fun t' => ?_, rfl, rfl, rfl, by simp [hempty, completedCalls]⟩
    split_ifs with h
    · simp [h, hempty]
    · rfl
  · have heq : s.executeImmediately record env =
        s.executePending (s.recordThread record) record env info.callQueue := by
      simp only [Scheduler.executeImmediately, hfind]
    rw [heq]
    have hqueue : queueOf s.roundRobin (s.recordThread record) = info.callQueue := by
      rw [queueOf, hfind]
      rfl
    obtain ⟨hn', hq, hc, ho, hf⟩ := executePending_queues _ record env hn hqueue
    refine ⟨hn', fun t' => ?_, hc, ho, executePending_records _ _ _ _ _, hqueue ▸ hf⟩
    refine (hq t').trans ?_
    split_ifs with h
    · rw [h, hqueue]
    · rfl

theorem CallsPending.run (h : CallsPending s) (t : ThreadId) : CallsPending (s.run t) := by
  have hget : ((s.getOrCreateThreadInfo t).roundRobin.map ThreadInfo.thread).Nodup ∧
      t ∈ (s.getOrCreateThreadInfo t).roundRobin.map ThreadInfo.thread ∧
      (∀ t', queueOf (s.getOrCreateThreadInfo t).roundRobin t' = queueOf s.roundRobin t') ∧
      (s.getOrCreateThreadInfo t).records = s.records ∧
      (s.getOrCreateThreadInfo t).recordCount = s.recordCount ∧
      (s.getOrCreateThreadInfo t).recordThread = s.recordThread := by
    unfold Scheduler.getOrCreateThreadInfo
    split_ifs with hany
    · obtain ⟨info, hinfo, ht⟩ := List.any_eq_true.mp hany
      exact ⟨h.threads, List.mem_map.mpr ⟨info, hinfo, of_decide_eq_true ht⟩, fun _ => rfl, rfl,
        rfl, rfl⟩
    · have hn : ((s.roundRobin ++ [({ thread := t } : ThreadInfo)]).map ThreadInfo.thread).Nodup := by
        rw [List.map_append, List.map_singleton]
        refine h.threads.append (List.nodup_singleton t) ?_
        rw [List.disjoint_singleton]
        intro ht
        obtain ⟨info, hinfo, rfl⟩ := List.mem_map.mp ht
        exact hany (List.any_eq_true.mpr ⟨info, hinfo, by simp⟩)
      exact ⟨hn, by simp, fun t' => (queueOf_of_append hn rfl t').symm, rfl, rfl, rfl⟩
  obtain ⟨hn, hmem, hq, hrecords, hcount, howner⟩ := hget
  unfold Scheduler.run
  generalize s.getOrCreateThreadInfo t = s₁ at *
  have hqueue := queueOf_enqueue hn hmem s₁.recordCount
  simp only [hq] at hqueue
  have hold : ∀ {t' r}, r ∈ queueOf s.roundRobin t' → r ≠ s₁.recordCount := fun hr =>
    hcount ▸ Nat.ne_of_lt (h.bounded _ _ hr)
  -- a call of a queue is an old one, or the new one at the end of its thread's queue
  have hcases : ∀ {t' r}, r ∈ queueOf (s₁.setInfo t (enqueue s₁.recordCount)).roundRobin t' →
      r ∈ queueOf s.roundRobin t' ∨ r = s₁.recordCount ∧ t' = t := by
    intro t' r hr
    rw [hqueue] at hr
    split_ifs at hr with ht
    · rcases List.mem_append.mp hr with hr | hr
      · exact Or.inl hr
      · exact Or.inr ⟨List.mem_singleton.mp hr, ht.symm⟩
    · exact Or.inl hr
  refine ⟨?_, fun t' => ?_, fun t' r hr => ?_, fun t' r hr => ?_, fun t' r hr => ?_⟩
  · show ((s₁.setInfo t (enqueue s₁.recordCount)).roundRobin.map ThreadInfo.thread).Nodup
    rwa [map_thread_setInfo (enqueue _) fun _ => rfl]
  · show (queueOf (s₁.setInfo t (enqueue s₁.recordCount)).roundRobin t').Nodup
    rw [hqueue]
    split_ifs
    · refine (h.distinct t').append (List.nodup_singleton _) ?_
      rw [List.disjoint_singleton]
      exact fun hr => hold hr rfl
    · exact h.distinct t'
  · show update s₁.recordThread s₁.recordCount t r = t'
    rcases hcases hr with hr | ⟨rfl, rfl⟩
    · rw [Function.update_of_ne (hold hr), howner, h.owner t' r hr]
    · exact Function.update_self ..
  · show r < s₁.recordCount + 1
    rcases hcases hr with hr | ⟨rfl, -⟩
    · exact (hcount ▸ h.bounded t' r hr).trans (Nat.lt_succ_self _)
    · exact Nat.lt_succ_self _
  · show (update s₁.records s₁.recordCount {} r).isDone = false
    rcases hcases hr with hr | ⟨rfl, -⟩
    · rw [Function.update_of_ne (hold hr), hrecords, h.waiting t' r hr]
    · rw [Function.update_self]

theorem unshift_recordThread (s : Scheduler) (t : ThreadId) (o : Object) :
    (s.unshift t o).recordThread = s.recordThread := by
  rw [Scheduler.unshift]
  split
  · dsimp only
    split_ifs <;> rfl
  · rfl

theorem CallsPending.callReady {result : CallResult} (h : CallsPending s) {r : Nat}
    (hr : (queueOf s.roundRobin t).head? = some r) : CallsPending (s.callReady t r result env) := by
  obtain ⟨calls, hqueue⟩ := List.head?_eq_some_iff.mp hr
  obtain ⟨hn, hq, -, -, hrecords, hcount, -⟩ := callReady_queues r result env h.threads
    (List.ne_nil_of_mem (hqueue ▸ List.mem_cons_self : r ∈ queueOf s.roundRobin t))
  have howner : (s.callReady t r result env).recordThread = s.recordThread := by
    rw [Scheduler.callReady, unshift_recordThread]
  have hsub : ∀ t', (queueOf (s.callReady t r result env).roundRobin t').Sublist
      (queueOf s.roundRobin t') := fun t' => by
    rw [hq]
    split_ifs
    · exact List.tail_sublist _
    · exact .refl _
  have hother : ∀ {t' r'}, r' ∈ queueOf (s.callReady t r result env).roundRobin t' →
      r' ≠ r := by
    rintro t' r' hr' rfl
    rw [hq] at hr'
    split_ifs at hr' with ht
    · rw [ht, hqueue, List.tail_cons] at hr'
      have := h.distinct t
      rw [hqueue] at this
      exact (List.nodup_cons.mp this).1 hr'
    · exact ht ((h.owner t' r' hr').symm.trans (h.owner t r' (by simp [hqueue])))
  refine ⟨hn, fun t' => (hsub t').nodup (h.distinct t'), fun t' r' hr' => ?_, fun t' r' hr' => ?_,
    fun t' r' hr' => ?_⟩
  · rw [howner]
    exact h.owner t' r' ((hsub t').subset hr')
  · rw [hcount]
    exact h.bounded t' r' ((hsub t').subset hr')
  · rw [hrecords, Function.update_of_ne (hother hr')]
    exact h.waiting t' r' ((hsub t').subset hr')

theorem CallsPending.apply {op : Op} (h : CallsPending s) (hstep : op.apply env s = some s') :
    CallsPending s' := by
  cases op with
  | run t =>
    simp only [Op.apply] at hstep
    split_ifs at hstep
    cases hstep
    exact h.run t
  | step =>
    simp only [Op.apply] at hstep
    split_ifs at hstep
    cases hstep
    obtain ⟨hn, hq, hc, ho⟩ := step_queues env h.threads
    exact h.of_sublist hn hq (step_records s env) hc ho
  | ready result =>
    simp only [Op.apply, Option.bind_eq_bind, Option.bind_eq_some_iff, Option.some.injEq] at hstep
    obtain ⟨t, -, info, hinfo, r, hr, rfl⟩ := hstep
    refine h.callReady ?_
    rw [queueOf, hinfo]
    exact hr
  | notReady a =>
    simp only [Op.apply, Option.map_eq_some_iff] at hstep
    obtain ⟨t, ht, rfl⟩ := hstep
    have hf : ∀ info : ThreadInfo, ({ info with wakeupInfo := some a } : ThreadInfo).thread =
        info.thread ∧ ({ info with wakeupInfo := some a } : ThreadInfo).callQueue =
          info.callQueue := fun _ => ⟨rfl, rfl⟩
    refine h.of_sublist ?_ (fun t' => ?_) rfl rfl rfl
    · show ((s.setInfo t _).roundRobin.map ThreadInfo.thread).Nodup
      rw [map_thread_setInfo _ fun info => (hf info).1]
      exact h.threads
    · show (queueOf (s.setInfo t _).roundRobin t').Sublist _
      rw [queueOf_setInfo_of_eq _ hf h.threads]
  | write a info =>
    cases hstep
    exact h.of_sublist h.threads (fun _ => .refl _) rfl rfl rfl
  | executeImmediately record =>
    simp only [Op.apply] at hstep
    split_ifs at hstep
    cases hstep
    obtain ⟨hn, hq, hc, ho, hr, -⟩ := executeImmediately_queues h.threads record env
    refine h.of_sublist hn (fun t' => ?_) hr hc ho
    rw [hq]
    split_ifs
    · exact List.drop_sublist _ _
    · exact .refl _

theorem callsPending_of_run {P : Env → Scheduler → Op → Prop} (run : Run P s) : CallsPending s := by
  induction run with
  | start =>
    exact ⟨List.nodup_nil, fun _ => List.nodup_nil, fun _ _ h => absurd h List.not_mem_nil,
      fun _ _ h => absurd h List.not_mem_nil, fun _ _ h => absurd h List.not_mem_nil⟩
  | step env _ hstep _ ih => exact ih.apply hstep

/-! ### Which calls are made -/

theorem completedCalls_append {record : Nat} {results : Nat → CallResult} :
    ∀ {pre : List Nat} (call : Nat) (post : List Nat), record ∉ pre →
    (∀ c ∈ call :: pre, env.synchronous c = some (results c)) →
    completedCalls record env (call :: pre ++ record :: post) =
      (call :: pre).map fun c => (c, results c)
  | [], call, post, _, hsync => by
    simp [completedCalls, hsync call List.mem_cons_self]
  | c :: pre, call, post, hr, hsync => by
    have hc : c ≠ record := fun h => hr (h ▸ List.mem_cons_self)
    have hsync' : ∀ d ∈ c :: pre, env.synchronous d = some (results d) := fun d hd =>
      hsync d (List.mem_cons_of_mem call hd)
    have ih := completedCalls_append c post (fun h => hr (List.mem_cons_of_mem c h)) hsync'
    rw [List.cons_append, completedCalls, hsync call List.mem_cons_self]
    simp only [List.cons_append, List.headD_cons, hc, if_false]
    rw [← List.cons_append, ih]
    rfl

theorem completedCalls_all {results : Nat → CallResult} : ∀ {calls : List Nat},
    record ∉ calls.tail → (∀ c ∈ calls, env.synchronous c = some (results c)) →
    completedCalls record env calls = calls.map fun c => (c, results c)
  | [], _, _ => rfl
  | [call], _, hsync => by
    simp [completedCalls, hsync call List.mem_cons_self]
  | call :: c :: calls, hr, hsync => by
    rw [List.tail_cons, List.mem_cons, not_or] at hr
    have hsync' : ∀ d ∈ c :: calls, env.synchronous d = some (results d) := fun d hd =>
      hsync d (List.mem_cons_of_mem call hd)
    have htail : record ∉ (c :: calls).tail := hr.2
    have ih := completedCalls_all htail hsync'
    rw [completedCalls, hsync call List.mem_cons_self]
    simp only [List.headD_cons, Ne.symm hr.1, if_false, ih]
    rfl

/-- No record is marked, so that the call never does what it is for. -/
theorem executeImmediately_wrong (run : Run (fun _ _ _ => True) s)
    (hr : record ∈ queueOf s.roundRobin (s.recordThread record))
    (hstep : (Op.executeImmediately record).apply env s = some s') :
    ¬ ∃ pre post results, ExecutesUpTo env s s' record pre post results := by
  rintro ⟨pre, post, results, h⟩
  have hpending := callsPending_of_run run
  simp only [Op.apply] at hstep
  split_ifs at hstep
  cases hstep
  obtain ⟨-, -, -, -, hrecords, -⟩ := executeImmediately_queues hpending.threads record env
  have hlen : (pre ++ [record]).length = results.length := by
    simpa using congrArg List.length h.ends
  obtain ⟨result, hmem⟩ : ∃ result, (record, result) ∈ (pre ++ [record]).zip results := by
    have hin : record ∈ ((pre ++ [record]).zip results).map Prod.fst := by
      rw [List.map_fst_zip hlen.le]
      simp
    obtain ⟨⟨_, result⟩, hmem, rfl⟩ := List.mem_map.mp hin
    exact ⟨result, hmem⟩
  have hdone := congrArg Gc.ExecutionRecord.isDone (h.marks _ hmem)
  rw [hrecords, hpending.waiting _ _ hr] at hdone
  cases hdone

/-- Every call that is made synchronously ends with this result. -/
def endingEnv : Env := { synchronous := fun _ => some ⟨42, false, 0⟩ }

/-- Two calls are enqueued for a thread. -/
def twoCalls : Scheduler := (({} : Scheduler).run 1).run 1

theorem twoCalls_run : Run (fun _ _ _ => True) twoCalls := by
  have h₁ : (Op.run 1).apply {} {} = some (({} : Scheduler).run 1) := rfl
  have h₂ : (Op.run 1).apply {} (({} : Scheduler).run 1) = some twoCalls := rfl
  exact .step {} (.step {} .start h₁ trivial) h₂ trivial

theorem twoCalls_wrong : ∃ s', (Op.executeImmediately 1).apply endingEnv twoCalls = some s' ∧
    ¬ ∃ pre post results, ExecutesUpTo endingEnv twoCalls s' 1 pre post results :=
  ⟨_, rfl, executeImmediately_wrong twoCalls_run (by decide) rfl⟩

/-- The first call is asked for: the second is made as well, and neither is marked. -/
theorem immediate_twice : ∃ s', (Op.executeImmediately 0).apply endingEnv twoCalls = some s' ∧
    s'.finished = [(1, 0, 42), (1, 1, 42)] ∧ (s'.records 0).isDone = false ∧
    ¬ ∃ pre post results, ExecutesUpTo endingEnv twoCalls s' 0 pre post results := by
  refine ⟨_, rfl, rfl, rfl, ?_⟩
  rintro ⟨pre, post, results, h⟩
  have hqueue : pre ++ 0 :: post = [0, 1] := h.queue.symm
  have hleaves : post = [] := h.leaves.symm
  rcases pre with _ | ⟨c, pre⟩
  · subst hleaves
    cases hqueue
  · rw [hleaves, List.cons_append, List.cons.injEq] at hqueue
    simpa using congrArg List.getLast? hqueue.2

end BJvm.Threads
