import BJvm.Threads.Parking
import BJvm.Proofs.Wakeups

/-!
# Permits

`unpark_permit` is never cleared.  A park waits as it should as long as no thread parks with a flag
that is left over from an earlier unpark (`parksRight_of_run`).
-/

namespace BJvm.Threads

open Function (update)

variable {sched sched' : Scheduler} {s s' : ParkState} {env : Env} {t t' : ThreadId} {a b : Addr}
  {obj : Object} {info : ThreadInfo} {x : Option Addr} {assertions : Bool}

/-! ### Parked threads -/

theorem parkedAt_iff : sched.ParkedAt t a ↔ sched.At t (some a) ∧ (sched.mem a).kind = .threadPark := by
  unfold Scheduler.ParkedAt Scheduler.At
  simp only [and_assoc, ← exists_and_right]

theorem parked_iff : sched.parked t = true ↔ ∃ a, sched.ParkedAt t a := by
  unfold Scheduler.parked Scheduler.ParkedAt
  simp only [List.any_eq_true, decide_eq_true_eq, Option.any_eq_true]
  constructor
  · rintro ⟨info, hinfo, ht, a, ha, hkind⟩
    exact ⟨a, info, hinfo, ht, ha, hkind⟩
  · rintro ⟨a, info, hinfo, ht, ha, hkind⟩
    exact ⟨info, hinfo, ht, a, ha, hkind⟩

theorem parkedAt_congr (hat : sched'.At t (some a) ↔ sched.At t (some a))
    (hkind : (sched'.mem a).kind = (sched.mem a).kind) :
    sched'.ParkedAt t a ↔ sched.ParkedAt t a := by
  rw [parkedAt_iff, parkedAt_iff, hat, hkind]

theorem timedOut_of_at (hn : (sched.roundRobin.map ThreadInfo.thread).Nodup)
    (h : sched.At t (some a)) (time : Nat) :
    sched.timedOut t time = (sched.mem a).timedOut time := by
  obtain ⟨info, hinfo, rfl, ha⟩ := h
  unfold Scheduler.timedOut
  rw [Bool.eq_iff_iff, List.any_eq_true]
  constructor
  · rintro ⟨info', hinfo', hboth⟩
    simp only [decide_eq_true_eq] at hboth
    have := List.inj_on_of_nodup_map hn hinfo' hinfo hboth.1
    rw [this, ha] at hboth
    simpa using hboth.2
  · intro htime
    exact ⟨info, hinfo, by simp [ha, htime]⟩

/-- What `is_sleeping` says of a thread in `park`. -/
theorem isSleeping_parked {m : Machine} {mem : Memory} {time : Nat} (ha : info.wakeupInfo = some a)
    (hkind : (mem a).kind = .threadPark) : isSleeping m mem time info =
      (!m.unparkPermit info.thread && !m.interrupted info.thread && !(mem a).timedOut time) := by
  unfold isSleeping WakeupInfo.timedOut
  simp only [ha, hkind]
  by_cases hp : m.unparkPermit info.thread = true <;>
    by_cases hi : m.interrupted info.thread = true <;>
    by_cases h0 : (mem a).wakeupUs = 0 <;> simp [hp, hi, h0, ← decide_not]

/-! ### The scheduler -/

theorem parkedAt_run : (sched.run t).ParkedAt t' a ↔ sched.ParkedAt t' a := by
  have hmem : (sched.run t).mem = sched.mem := by
    unfold Scheduler.run Scheduler.getOrCreateThreadInfo
    split_ifs <;> rfl
  refine parkedAt_congr (at_run.trans (or_iff_left fun h => ?_)) (by rw [hmem])
  cases h.2.1

/-- The running thread's call finishes, which is not parked. -/
theorem parkedAt_callReady {r : Nat} {result : CallResult} (hidle : ∀ x, sched.At t x → x = none) :
    (sched.callReady t r result env).ParkedAt t' a ↔ sched.ParkedAt t' a := by
  unfold Scheduler.callReady
  generalize hs : ({ sched with
    running := none
    records := update sched.records r
      { isDone := true
        returned := result.returned
        jsHandle := if result.isReference && result.returned ≠ 0 then some result.jsHandle
          else none }
    finished := sched.finished ++ [(t, r, result.returned)] } : Scheduler) = s₁
  have hat : ∀ t x, s₁.At t x ↔ sched.At t x := fun t x => by rw [← hs]; rfl
  have hmem : s₁.mem = sched.mem := by rw [← hs]
  refine parkedAt_congr ?_ ?_
  · by_cases ht : t' = t
    · subst ht
      constructor
      · intro h
        exact (hat _ _).mp (at_of_unshift _ h)
      · intro h
        cases hidle _ h
    · rw [at_unshift ht, hat]
  · rw [(marks_unshift (s := s₁) (t := t) (env.threadObj t)).kind, hmem]

theorem parkedAt_callNotReady (ht : ∃ y, sched.At t y) (hidle : ∀ x, sched.At t x → x = none)
    (hkind : (sched.mem b).kind ≠ .threadPark) :
    (sched.callNotReady t b).ParkedAt t' a ↔ sched.ParkedAt t' a := by
  rw [parkedAt_iff, parkedAt_iff, at_callNotReady ht]
  have hmem : (sched.callNotReady t b).mem = sched.mem := rfl
  rw [hmem]
  split_ifs with h
  · subst h
    constructor
    · rintro ⟨hb, hk⟩
      cases hb
      exact absurd hk hkind
    · rintro ⟨hat, -⟩
      cases hidle _ hat
  · rfl

theorem inUse_iff : sched.inUse a = true ↔ ∃ t, sched.At t (some a) := by
  unfold Scheduler.inUse Scheduler.At
  simp only [List.any_eq_true, decide_eq_true_eq]
  constructor
  · rintro ⟨info, hinfo, ha⟩
    exact ⟨_, info, hinfo, rfl, ha⟩
  · rintro ⟨t, info, hinfo, -, ha⟩
    exact ⟨info, hinfo, ha⟩

theorem parkedAt_write {wakeup : WakeupInfo} (hfree : sched.inUse b = false) :
    ({ sched with mem := update sched.mem b wakeup } : Scheduler).ParkedAt t a ↔
      sched.ParkedAt t a := by
  rw [parkedAt_iff, parkedAt_iff]
  refine and_congr_right fun hat => ?_
  have hne : a ≠ b := by
    rintro rfl
    have huse : sched.inUse a = true := inUse_iff.mpr ⟨t, hat⟩
    rw [hfree] at huse
    cases huse
  simp only [Function.update_of_ne hne]

/-- The thread that a step runs has been found awake. -/
theorem step_awake (h : (sched.step env).running = some t) (hnone : sched.running = none) :
    ∃ info ∈ sched.roundRobin, info.thread = t ∧
      isSleeping env.machine sched.mem env.time info = false := by
  unfold Scheduler.step at h
  have hfalse : sched.running ≠ some t := by simp [hnone]
  split_ifs at h
  · exact absurd h hfalse
  · obtain ⟨-, hfound⟩ := @getNextThr_perm sched.roundRobin env.machine sched.mem env.pickTime
    split at h
    · exact absurd h hfalse
    · rename_i infos info heq
      rw [heq] at hfound
      dsimp only at h
      split_ifs at h with hsleep hempty
      · exact absurd h hfalse
      · exact absurd h hfalse
      · exact ⟨info, (hfound info rfl).1, by simpa using h, by simpa using hsleep⟩

/-- A step clears the record of the thread that it runs. -/
theorem parkedAt_step (h : SchedulerInv sched) (hnone : sched.running = none) :
    (∀ t a, (sched.step env).ParkedAt t a ↔
      sched.ParkedAt t a ∧ (sched.step env).running ≠ some t) ∧
    (∀ t x, (sched.step env).running = some t → (sched.step env).At t x → x = none) ∧
    ∀ t x, (sched.step env).At t x → ∃ y, sched.At t y := by
  obtain ⟨infos, hperm, hcases⟩ := step_cases env h.threads h.suspended
  have hat : ∀ {t x}, ({ sched with roundRobin := infos } : Scheduler).At t x ↔ sched.At t x :=
    at_perm hperm
  have hrunning : ∀ t, sched.running ≠ some t := by simp [hnone]
  rcases hcases with hstep | ⟨l, info, rfl, hempty, hstep⟩ | ⟨info, hinfo, -, hstep⟩
  · rw [hstep]
    refine ⟨fun t a => ?_, fun t x hr => absurd hr (hrunning t), fun t x hx => ⟨x, hat.mp hx⟩⟩
    rw [and_iff_left (hrunning t)]
    exact parkedAt_congr hat rfl
  · rw [hstep]
    have hmem : ∀ {t x}, ({ sched with roundRobin := l } : Scheduler).At t x →
        ({ sched with roundRobin := l ++ [info] } : Scheduler).At t x := fun ⟨y, hy, hyt⟩ =>
      ⟨y, List.mem_append_left _ hy, hyt⟩
    refine ⟨fun t a => ?_, fun t x hr => absurd hr (hrunning t), fun t x hx =>
      ⟨x, hat.mp (hmem hx)⟩⟩
    rw [and_iff_left (hrunning t)]
    refine parkedAt_congr (Iff.trans ⟨hmem, fun ⟨y, hy, hyt, hya⟩ => ?_⟩ hat) rfl
    rcases List.mem_append.mp hy with hyl | hy
    · exact ⟨y, hyl, hyt, hya⟩
    · -- the thread that is taken out has no calls, so it does not wait
      rw [List.mem_singleton.mp hy] at hya
      exact absurd hempty (h.suspended info (hperm.subset (by simp)) (by simp [hya]))
  · have hself : ∀ {x}, (({ sched with roundRobin := infos } : Scheduler).setInfo info.thread
        cleared).At info.thread x ↔ x = none :=
      at_setInfo_self cleared (fun _ => rfl) (fun _ => rfl) ⟨_, info, hinfo, rfl, rfl⟩
    rw [hstep]
    refine ⟨fun t a => ?_, fun t x hr hx => ?_, fun t x hx => ?_⟩
    · by_cases ht : t = info.thread
      · subst ht
        refine ⟨fun hp => ?_, fun hp => absurd rfl hp.2⟩
        cases hself.mp (parkedAt_iff.mp hp).1
      · rw [and_iff_left fun hr => ht (Option.some.inj hr).symm]
        exact parkedAt_congr ((at_setInfo cleared (fun _ => rfl) ht).trans hat) rfl
    · cases Option.some.inj hr
      exact hself.mp hx
    · by_cases ht : t = info.thread
      · exact ht ▸ ⟨_, hat.mp ⟨info, hinfo, rfl, rfl⟩⟩
      · exact ⟨x, hat.mp ((at_setInfo cleared (fun _ => rfl) ht).mp hx)⟩

theorem unshift_running (o : Object) : (sched.unshift t o).running = sched.running := by
  rw [Scheduler.unshift]
  split
  · dsimp only
    split_ifs <;> rfl
  · rfl

/-! ### Steps -/

/-- The flags and the history agree for the threads that are parked. -/
structure ParkInv (s : ParkState) : Prop where
  sched : SchedulerInv s.scheduler
  bounded : ∀ t x, s.scheduler.At t x → t < s.threads.threadCount
  idle : ∀ t x, s.scheduler.running = some t → s.scheduler.At t x → x = none
  fresh : ∀ t a, s.scheduler.ParkedAt t a → s.NotStale t
  kept : ∀ t, s.permit t = true → s.unparkPermit t = true
  consumed : ∀ t, s.released t + (s.permit t).toNat ≤ s.unparks t
  alive : s.aborted = false

theorem start_parkInv : ParkInv {} where
  sched := start_schedulerInv
  bounded _ _ h := by
    obtain ⟨_, hinfo, -⟩ := h
    cases hinfo
  idle _ _ h := by cases h
  fresh _ _ h := by
    obtain ⟨_, hinfo, -⟩ := h
    cases hinfo
  kept _ h := by cases h
  consumed _ := Nat.le_refl 0
  alive := rfl

namespace ParkInv

theorem sleeping (h : ParkInv s) (hinfo : info ∈ s.scheduler.roundRobin)
    (ha : info.wakeupInfo = some a) (hkind : (s.scheduler.mem a).kind = .threadPark)
    (m : Machine) (time : Nat) : isSleeping (s.machine m) s.scheduler.mem time info =
      (!s.permit info.thread && !s.isInterrupted info.thread &&
        !(s.scheduler.mem a).timedOut time) := by
  rw [isSleeping_parked ha hkind]
  have hfresh := h.fresh info.thread a ⟨info, hinfo, rfl, ha, hkind⟩
  have hkept := h.kept info.thread
  unfold ParkState.NotStale at hfresh
  simp only [ParkState.machine]
  rcases hf : s.unparkPermit info.thread with _ | _ <;>
    rcases hp : s.permit info.thread with _ | _ <;>
    rcases hi : s.isInterrupted info.thread with _ | _ <;> simp_all

theorem parksRight (h : ParkInv s) : ParksRight s where
  sleeping _ hinfo _ ha hkind m time := h.sleeping hinfo ha hkind m time
  consumed := h.consumed
  running := h.alive

/-- The running thread is known, and not parked. -/
theorem runner (h : ParkInv s) (ht : s.scheduler.running = some t) :
    (∃ y, s.scheduler.At t y) ∧ ∀ x, s.scheduler.At t x → x = none :=
  ⟨exists_at (h.sched.running t ht), fun x => h.idle t x ht⟩

/-- What an operation of the scheduler does to the parked threads. -/
theorem scheduler_spec (h : ParkInv s) {op : Op} {sched : Scheduler}
    (hallowed : (ThreadOp.scheduler op).allowed s.threads = true)
    (hstep : op.apply env s.scheduler = some sched) :
    SchedulerInv sched ∧ (∀ t x, sched.At t x → (∃ y, s.scheduler.At t y) ∨ op = .run t) ∧
      (∀ t x, sched.running = some t → sched.At t x → x = none) ∧
      ∀ t a, sched.ParkedAt t a ↔
        s.scheduler.ParkedAt t a ∧ (op = .step → sched.running ≠ some t) := by
  have hinv : SchedulerInv sched := apply_inv h.sched hstep (by
    cases op with
    | executeImmediately record => cases hallowed
    | _ => exact trivial)
  refine ⟨hinv, ?_⟩
  cases op with
  | run t =>
    simp only [Op.apply] at hstep
    split_ifs at hstep with hr
    cases hstep
    have hrunning : (s.scheduler.run t).running = s.scheduler.running := by
      unfold Scheduler.run Scheduler.getOrCreateThreadInfo
      split_ifs <;> rfl
    refine ⟨fun t' x hx => ?_, fun t' x hr' hx => ?_, fun t' a => ?_⟩
    · rcases at_run.mp hx with hx | ⟨rfl, -⟩
      · exact .inl ⟨x, hx⟩
      · exact .inr rfl
    · rcases at_run.mp hx with hx | ⟨-, hx, -⟩
      · exact h.idle t' x (hrunning ▸ hr') hx
      · exact hx
    · rw [parkedAt_run, and_iff_left fun heq => by cases heq]
  | step =>
    simp only [Op.apply] at hstep
    split_ifs at hstep with hnone
    cases hstep
    obtain ⟨hparked, hidle, hat⟩ := @parkedAt_step _ env h.sched hnone
    refine ⟨fun t x hx => .inl (hat t x hx), hidle, fun t a => ?_⟩
    rw [hparked]
    simp
  | ready result =>
    simp only [Op.apply, Option.bind_eq_bind, Option.bind_eq_some_iff] at hstep
    obtain ⟨t, hr, info, -, r, -, hstep⟩ := hstep
    cases hstep
    refine ⟨fun t' x hx => .inl ⟨x, ?_⟩, fun t' x hr' => ?_, fun t' a => ?_⟩
    · rw [Scheduler.callReady] at hx
      have := at_of_unshift (env.threadObj t) hx
      exact this
    · rw [Scheduler.callReady, unshift_running] at hr'
      cases hr'
    · rw [parkedAt_callReady (h.runner hr).2, and_iff_left fun heq => by cases heq]
  | notReady wakeup =>
    obtain ⟨t, hr, rfl⟩ := Option.map_eq_some_iff.mp hstep
    obtain ⟨hat, hidle⟩ := h.runner hr
    refine ⟨fun t' x hx => ?_, fun t' x hr' => ?_, fun t' a => ?_⟩
    · rw [at_callNotReady hat] at hx
      split_ifs at hx with ht
      · exact .inl (ht ▸ hat)
      · exact .inl ⟨x, hx⟩
    · cases hr'
    · rw [parkedAt_callNotReady hat hidle (by simpa [ThreadOp.allowed] using hallowed),
        and_iff_left fun heq => by cases heq]
  | write b wakeup =>
    cases hstep
    simp only [ThreadOp.allowed, Bool.decide_and, Bool.and_eq_true] at hallowed
    refine ⟨fun t' x hx => .inl ⟨x, hx⟩, h.idle, fun t' a => ?_⟩
    rw [parkedAt_write (by simpa using hallowed.1), and_iff_left fun heq => by cases heq]
  | executeImmediately record => cases hallowed

/-- A change of the scheduler that parks no thread. -/
theorem keep (h : ParkInv s) {threads : ThreadState}
    (hobj : threads.threadObj = s.threads.threadObj)
    (hcount : threads.threadCount = s.threads.threadCount) (hinv : SchedulerInv threads.scheduler)
    (hat : ∀ t x, threads.scheduler.At t x → t < s.threads.threadCount)
    (hidle : ∀ t x, threads.scheduler.running = some t → threads.scheduler.At t x → x = none)
    (hparked : ∀ t a, threads.scheduler.ParkedAt t a → s.scheduler.ParkedAt t a) :
    ParkInv { s with threads } where
  sched := hinv
  bounded t x hx := hcount ▸ hat t x hx
  idle := hidle
  fresh t a hp := by
    have := h.fresh t a (hparked t a hp)
    rw [ParkState.NotStale, ParkState.isInterrupted] at this ⊢
    rwa [hobj]
  kept := h.kept
  consumed := h.consumed
  alive := h.alive

/-- The thread that a step runs was not parked, or its park has ended as it should. -/
theorem awake (h : ParkInv s) (env : Env) (hnone : s.scheduler.running = none)
    (hmachine : env.machine = s.machine env.machine)
    (hr : (s.scheduler.step env).running = some t) (hp : s.scheduler.ParkedAt t a) :
    (s.permit t || s.isInterrupted t || (s.scheduler.mem a).timedOut env.time) = true := by
  obtain ⟨info, hinfo, hit, hsleep⟩ := step_awake hr hnone
  obtain ⟨info', hinfo', ht, ha, hkind⟩ := hp
  have heq : info' = info :=
    List.inj_on_of_nodup_map h.sched.threads hinfo' hinfo (ht.trans hit.symm)
  subst heq
  rw [hmachine, h.sleeping hinfo ha hkind, ht] at hsleep
  rcases hpt : s.permit t with _ | _ <;> rcases hit : s.isInterrupted t with _ | _ <;> simp_all

theorem behindStep (h : ParkInv s) (env : Env) (hnone : s.scheduler.running = none)
    (hmachine : env.machine = s.machine env.machine) :
    ParkInv (s.behindStep (s.scheduler.step env) env.time) := by
  obtain ⟨hparked, hidle, hat⟩ := @parkedAt_step _ env h.sched hnone
  have hresumes : ∀ t, s.resumes (s.scheduler.step env) t = true ↔
      (s.scheduler.step env).running = some t ∧ ∃ a, s.scheduler.ParkedAt t a := fun t => by
    rw [ParkState.resumes, decide_eq_true_eq, parked_iff]
  refine ⟨step_inv h.sched, fun t x hx => ?_, hidle, fun t a hp => ?_, fun t ht => ?_, fun t => ?_,
    h.alive⟩
  · obtain ⟨y, hy⟩ := hat t x hx
    exact h.bounded t y hy
  · obtain ⟨hp, hr⟩ := (hparked t a).mp hp
    have hno : ¬ s.resumes (s.scheduler.step env) t = true := fun hres => hr ((hresumes t).mp hres).1
    have := h.fresh t a hp
    unfold ParkState.NotStale at this ⊢
    simpa [ParkState.behindStep, hno, ParkState.isInterrupted] using this
  · simp only [ParkState.behindStep] at ht
    split_ifs at ht
    exact h.kept t ht
  · have hc := h.consumed t
    simp only [ParkState.behindStep]
    by_cases hres : s.resumes (s.scheduler.step env) t = true
    · obtain ⟨hr, a, hp⟩ := (hresumes t).mp hres
      have hawake := h.awake env hnone hmachine hr hp
      rw [← timedOut_of_at h.sched.threads (parkedAt_iff.mp hp).1] at hawake
      split_ifs with hrel
      · have hpermit : s.permit t = true := by simp_all
        rw [hpermit] at hc
        simpa using hc
      · simp only [Bool.toNat_false]
        omega
    · simpa [hres] using hc

/-- A thread is made. -/
theorem behindStart (h : ParkInv s) {threads : ThreadState}
    (hcount : threads.threadCount = s.threads.threadCount + 1)
    (hobj : threads.threadObj = update s.threads.threadObj s.threads.threadCount obj)
    (hinv : SchedulerInv threads.scheduler)
    (hat : ∀ t x, threads.scheduler.At t x → s.scheduler.At t x ∨ t = s.threads.threadCount)
    (hidle : ∀ t x, threads.scheduler.running = some t → threads.scheduler.At t x → x = none)
    (hparked : ∀ t a, threads.scheduler.ParkedAt t a → s.scheduler.ParkedAt t a) :
    ParkInv (s.behindStart threads) where
  sched := hinv
  bounded t x hx := by
    show t < threads.threadCount
    rw [hcount]
    rcases hat t x hx with hx | rfl
    · exact (h.bounded t x hx).trans (Nat.lt_succ_self _)
    · exact Nat.lt_succ_self _
  idle := hidle
  fresh t a hp := by
    have hp := hparked t a hp
    have hne : t ≠ s.threads.threadCount :=
      Nat.ne_of_lt (h.bounded t _ (parkedAt_iff.mp hp).1)
    have := h.fresh t a hp
    unfold ParkState.NotStale ParkState.isInterrupted at this ⊢
    simpa [ParkState.behindStart, hobj, Function.update_of_ne hne] using this
  kept t ht := by
    simp only [ParkState.behindStart] at ht ⊢
    by_cases hne : t = s.threads.threadCount
    · simp [hne] at ht
    · rw [Function.update_of_ne hne] at ht ⊢
      exact h.kept t ht
  consumed t := by
    have hc := h.consumed t
    simp only [ParkState.behindStart]
    by_cases hne : t = s.threads.threadCount
    · rw [hne, Function.update_self]
      rw [hne] at hc
      simp only [Bool.toNat_false]
      omega
    · rwa [Function.update_of_ne hne]
  alive := h.alive

theorem start0 (h : ParkInv s) (obj : Object) : ParkInv (s.behindStart (s.threads.start0 obj)) := by
  have hrunning : (s.scheduler.run s.threads.threadCount).running = s.scheduler.running := by
    unfold Scheduler.run Scheduler.getOrCreateThreadInfo
    split_ifs <;> rfl
  refine h.behindStart rfl rfl (run_inv h.sched) (fun t x hx => ?_) (fun t x hr hx => ?_)
    fun t a hp => parkedAt_run.mp hp
  · rcases at_run.mp hx with hx | ⟨ht, -⟩
    · exact .inl hx
    · exact .inr ht
  · rcases at_run.mp hx with hx | ⟨-, hx, -⟩
    · exact h.idle t x (hrunning ▸ hr) hx
    · exact hx

theorem threads (h : ParkInv s) {op : ThreadOp} {threads : ThreadState}
    (hallowed : op.allowed s.threads = true)
    (hstep : op.apply { env with machine := s.machine env.machine } s.threads = some threads) :
    ParkInv (s.behind threads env.time op) := by
  cases op with
  | createMainThread obj =>
    simp only [ThreadOp.apply] at hstep
    split_ifs at hstep
    cases hstep
    exact h.behindStart rfl rfl h.sched (fun _ _ => .inl) h.idle fun _ _ => id
  | start0 obj =>
    cases hstep
    exact h.start0 obj
  | scheduler op =>
    simp only [ThreadOp.apply] at hstep
    split_ifs at hstep with hfor
    obtain ⟨sched, hsched, rfl⟩ := Option.map_eq_some_iff.mp hstep
    obtain ⟨hinv, hat, hidle, hparked⟩ := h.scheduler_spec hallowed hsched
    have hkeep : ParkInv { s with threads :=
        { s.threads with scheduler := sched, eetop := s.threads.eetopAfter op } } := by
      refine h.keep rfl rfl hinv (fun t x hx => ?_) hidle fun t a hp => ((hparked t a).mp hp).1
      rcases hat t x hx with ⟨y, hy⟩ | rfl
      · exact h.bounded t y hy
      · exact of_decide_eq_true hfor
    cases op with
    | step =>
      simp only [Op.apply] at hsched
      split_ifs at hsched with hnone
      cases hsched
      exact h.behindStep { env with
        machine := s.machine env.machine
        threadObj := s.threads.threadObj } hnone rfl
    | _ => exact hkeep

/-- The threads parked when the running one has parked. -/
theorem parkedAt_parkYields (h : ParkInv s) (hr : s.scheduler.running = some t)
    (hfree : s.scheduler.inUse a = false) (deadline : Nat) :
    (s.parkYields t deadline a).scheduler.ParkedAt t' b ↔
      if t' = t then b = a else s.scheduler.ParkedAt t' b := by
  obtain ⟨hat, -⟩ := h.runner hr
  rw [parkedAt_iff]
  have hat' : (s.parkYields t deadline a).scheduler.At t' (some b) ↔
      if t' = t then some b = some a else s.scheduler.At t' (some b) :=
    at_callNotReady (s := { s.scheduler with mem := s.parkRecord deadline a }) hat
  have hmem : (s.parkYields t deadline a).scheduler.mem = s.parkRecord deadline a := rfl
  rw [hat', hmem, ParkState.parkRecord]
  split_ifs with ht
  · rw [Option.some.injEq]
    refine and_iff_left_of_imp fun hb => ?_
    rw [hb, Function.update_self]
  · exact parkedAt_iff.symm.trans (parkedAt_write hfree)

/-- Parking where no flag is left over. -/
theorem parkYields (h : ParkInv s) (hr : s.scheduler.running = some t) (hfresh : s.NotStale t)
    (hfree : s.scheduler.inUse a = false) (deadline : Nat) :
    ParkInv (s.parkYields t deadline a) := by
  obtain ⟨hat, -⟩ := h.runner hr
  have hwritten : SchedulerInv { s.scheduler with mem := s.parkRecord deadline a } :=
    { h.sched with }
  refine ⟨callNotReady_inv hwritten hr, fun t' x hx => ?_, fun t' x hr' => ?_, fun t' b hp => ?_,
    h.kept, h.consumed, h.alive⟩
  · have hx : if t' = t then x = some a else s.scheduler.At t' x :=
      (at_callNotReady (s := { s.scheduler with mem := s.parkRecord deadline a }) hat).mp hx
    split_ifs at hx with ht
    · obtain ⟨y, hy⟩ := hat
      exact ht ▸ h.bounded t y hy
    · exact h.bounded t' x hx
  · cases hr'
  · rw [h.parkedAt_parkYields hr hfree] at hp
    split_ifs at hp with ht
    · exact ht ▸ hfresh
    · exact h.fresh t' b hp

/-- The running thread, which is not parked, loses its permit. -/
theorem parkReturns (h : ParkInv s) (hr : s.scheduler.running = some t) :
    ParkInv (s.parkReturns t) := by
  have hpermit : (s.parkReturns t).permit = update s.permit t false := rfl
  refine { h with fresh := fun t' b hp => ?_, kept := fun t' ht => ?_, consumed := fun t' => ?_ }
  · have hne : t' ≠ t := by
      rintro rfl
      cases h.idle t' _ hr (parkedAt_iff.mp hp).1
    have := h.fresh t' b hp
    rw [ParkState.NotStale] at this ⊢
    rwa [hpermit, Function.update_of_ne hne]
  · rw [hpermit] at ht
    by_cases hne : t' = t
    · simp [hne] at ht
    · rw [Function.update_of_ne hne] at ht
      exact h.kept t' ht
  · have hc := h.consumed t'
    rw [hpermit]
    by_cases hne : t' = t
    · rw [hne, Function.update_self, Bool.toNat_false]
      exact (Nat.le_add_right _ _).trans (hne ▸ hc)
    · rwa [Function.update_of_ne hne]

theorem setUnparkPermit (h : ParkInv s) (t : ThreadId) : ParkInv (s.setUnparkPermit t) := by
  have hpermit : (s.setUnparkPermit t).permit = update s.permit t true := rfl
  have hflag : (s.setUnparkPermit t).unparkPermit = update s.unparkPermit t true := rfl
  have hunparks : (s.setUnparkPermit t).unparks = update s.unparks t (s.unparks t + 1) := rfl
  refine { h with fresh := fun t' b hp => ?_, kept := fun t' ht => ?_, consumed := fun t' => ?_ }
  · have := h.fresh t' b hp
    rw [ParkState.NotStale] at this ⊢
    rw [hpermit, hflag]
    by_cases hne : t' = t
    · simp [hne]
    · rwa [Function.update_of_ne hne, Function.update_of_ne hne]
  · rw [hpermit] at ht
    rw [hflag]
    by_cases hne : t' = t
    · rw [hne, Function.update_self]
    · rw [Function.update_of_ne hne] at ht ⊢
      exact h.kept t' ht
  · have hc := h.consumed t'
    rw [hpermit, hunparks]
    by_cases hne : t' = t
    · rw [hne, Function.update_self, Function.update_self, Bool.toNat_true]
      rw [hne] at hc
      exact Nat.succ_le_succ ((Nat.le_add_right _ _).trans hc)
    · rwa [Function.update_of_ne hne, Function.update_of_ne hne]

/-- A change of the interrupts under which no flag of a parked thread begins to matter. -/
theorem interrupts (h : ParkInv s) {interrupted : Object → Bool}
    (hsame : ∀ t, s.scheduler.parked t = true → s.isInterrupted t = true →
      interrupted (s.threads.threadObj t) = false →
      s.unparkPermit t = true → s.permit t = true) : ParkInv { s with interrupted } := by
  refine { h with fresh := fun t b hp hflag => ?_ }
  rcases h.fresh t b hp hflag with hpermit | hint
  · exact .inl hpermit
  · rcases hnew : interrupted (s.threads.threadObj t) with _ | _
    · exact .inl (hsame t (parked_iff.mpr ⟨b, hp⟩) hint hnew hflag)
    · exact .inr hnew

theorem apply (h : ParkInv s) {op : ParkOp} (hstep : op.apply assertions env s = some s')
    (hop : ParksFresh assertions env s op) : ParkInv s' := by
  cases op with
  | park isAbsolute time a =>
    simp only [ParkOp.apply, Option.bind_eq_bind, Option.bind_eq_some_iff] at hstep
    obtain ⟨t, hr, hstep⟩ := hstep
    rcases hd : parkDeadline isAbsolute time env.time with _ | deadline
    · rw [hd] at hstep
      cases hstep
      exact h.parkReturns hr
    · rw [hd] at hstep
      simp only [] at hstep
      split_ifs at hstep with huse
      cases hstep
      exact h.parkYields hr (hop (by simp [hd]) t hr) (by simpa using huse) deadline
  | unpark obj =>
    simp only [ParkOp.apply] at hstep
    rcases ho : s.threads.eetop obj with _ | t
    · rw [ho] at hstep
      simp only [] at hstep
      split_ifs at hstep with has
      · exact absurd ho (hop has)
      · cases hstep
        exact h
    · rw [ho] at hstep
      cases hstep
      exact h.setUnparkPermit t
  | interrupt obj =>
    cases hstep
    refine h.interrupts fun t _ hint hnew => ?_
    by_cases heq : s.threads.threadObj t = obj
    · simp [heq] at hnew
    · rw [Function.update_of_ne heq] at hnew
      exact absurd (hint.symm.trans hnew) (by simp)
  | clearInterrupt =>
    obtain ⟨t, hr, rfl⟩ := Option.map_eq_some_iff.mp hstep
    refine h.interrupts fun t' hp hint hnew => ?_
    by_cases heq : s.threads.threadObj t' = s.threads.threadObj t
    · exact hop t hr t' hp heq
    · rw [Function.update_of_ne heq] at hnew
      exact absurd (hint.symm.trans hnew) (by simp)
  | threads op =>
    simp only [ParkOp.apply] at hstep
    split_ifs at hstep with hallowed
    obtain ⟨threads, hthreads, rfl⟩ := Option.map_eq_some_iff.mp hstep
    exact h.threads hallowed hthreads

/-- A park ends only in a step of the scheduler that runs the thread. -/
theorem ends (h : ParkInv s) {op : ParkOp} (hstep : op.apply assertions env s = some s')
    (hp : s.scheduler.ParkedAt t a) (hp' : ¬ s'.scheduler.ParkedAt t a) :
    s'.scheduler.running = some t ∧
      (s.permit t || s.isInterrupted t || (s.scheduler.mem a).timedOut env.time) = true := by
  cases op with
  | park isAbsolute time b =>
    simp only [ParkOp.apply, Option.bind_eq_bind, Option.bind_eq_some_iff] at hstep
    obtain ⟨t', hr, hstep⟩ := hstep
    rcases hd : parkDeadline isAbsolute time env.time with _ | deadline
    · rw [hd] at hstep
      cases hstep
      exact absurd hp hp'
    · rw [hd] at hstep
      simp only [] at hstep
      split_ifs at hstep with huse
      cases hstep
      have hne : t ≠ t' := by
        rintro rfl
        cases h.idle t _ hr (parkedAt_iff.mp hp).1
      rw [h.parkedAt_parkYields hr (by simpa using huse), if_neg hne] at hp'
      exact absurd hp hp'
  | unpark obj =>
    simp only [ParkOp.apply] at hstep
    split at hstep
    · cases hstep
      exact absurd hp hp'
    · split_ifs at hstep <;>
      · cases hstep
        exact absurd hp hp'
  | interrupt obj =>
    cases hstep
    exact absurd hp hp'
  | clearInterrupt =>
    obtain ⟨t', -, rfl⟩ := Option.map_eq_some_iff.mp hstep
    exact absurd hp hp'
  | threads op =>
    simp only [ParkOp.apply] at hstep
    split_ifs at hstep with hallowed
    obtain ⟨threads, hthreads, rfl⟩ := Option.map_eq_some_iff.mp hstep
    cases op with
    | createMainThread obj =>
      simp only [ThreadOp.apply] at hthreads
      split_ifs at hthreads
      cases hthreads
      exact absurd hp hp'
    | start0 obj =>
      cases hthreads
      exact absurd (parkedAt_run.mpr hp) hp'
    | scheduler op =>
      simp only [ThreadOp.apply] at hthreads
      split_ifs at hthreads
      obtain ⟨sched, hsched, rfl⟩ := Option.map_eq_some_iff.mp hthreads
      obtain ⟨-, -, -, hparked⟩ := h.scheduler_spec hallowed hsched
      cases op with
      | step =>
        simp only [Op.apply] at hsched
        split_ifs at hsched with hnone
        cases hsched
        have hr : (s.scheduler.step { env with
            machine := s.machine env.machine
            threadObj := s.threads.threadObj }).running = some t := by
          by_contra hr
          exact hp' ((hparked t a).mpr ⟨hp, fun _ => hr⟩)
        exact ⟨hr, h.awake { env with
          machine := s.machine env.machine
          threadObj := s.threads.threadObj } hnone rfl hr hp⟩
      | _ => exact absurd ((hparked t a).mpr ⟨hp, fun heq => by cases heq⟩) hp'

theorem stepsRight (h : ParkInv s) (assertions : Bool) : StepsRight assertions s where
  ends _ _ _ _ _ hstep hp hp' := h.ends hstep hp hp'
  dead env obj s' ho has hstep := by
    simp only [ParkOp.apply, ho, has] at hstep
    cases hstep
    rfl

end ParkInv

/-! ### Runs -/

/-- In every run in which no thread waits in `park` with a flag left over, and which with assertions
unparks only threads that are alive, permits are binary and consumed. -/
theorem parksRight_of_run (run : ParkRun assertions (ParksFresh assertions) s) :
    ParksRight s ∧ StepsRight assertions s := by
  suffices h : ParkInv s from ⟨h.parksRight, h.stepsRight assertions⟩
  induction run with
  | start => exact start_parkInv
  | step env _ hstep hop ih => exact ih.apply hstep hop

theorem ParkRun.next {P : Env → ParkState → ParkOp → Prop} (run : ParkRun assertions P s) (env : Env)
    (op : ParkOp) (h : (op.apply assertions env s).isSome) (hop : P env s op) :
    ParkRun assertions P ((op.apply assertions env s).get h) :=
  .step env run (Option.some_get h).symm hop

/-- A thread is unparked, parks and runs on. -/
theorem parksRight_once : ∃ s, ParkRun true (ParksFresh true) s ∧ s.released 0 = 1 ∧
    ParksRight s ∧ StepsRight true s := by
  have r₁ := (ParkRun.start : ParkRun true (ParksFresh true) {}).next {}
    (.threads (.createMainThread 8)) rfl trivial
  have r₂ := r₁.next {} (.threads (.scheduler (.run 0))) rfl trivial
  have r₃ := r₂.next {} (.threads (.scheduler .step)) rfl trivial
  have r₄ := r₃.next {} (.unpark 8) rfl fun _ h => by cases h
  have r₅ := r₄.next {} (.park false 0 16) rfl fun _ t ht _ => by
    cases (ht : some 0 = some t)
    exact .inl rfl
  have r₆ := r₅.next {} (.threads (.scheduler .step)) rfl trivial
  exact ⟨_, r₆, rfl, parksRight_of_run r₆⟩

/-- The second park of the thread does not wait either. -/
theorem second_park_returns : ∃ s, ParkRun true (fun _ _ _ => True) s ∧ s.unparks 0 = 1 ∧
    s.released 0 = 2 ∧ ¬ ParksRight s := by
  have r₁ := (ParkRun.start : ParkRun true (fun _ _ _ => True) {}).next {}
    (.threads (.createMainThread 8)) rfl trivial
  have r₂ := r₁.next {} (.threads (.scheduler (.run 0))) rfl trivial
  have r₃ := r₂.next {} (.threads (.scheduler .step)) rfl trivial
  have r₄ := r₃.next {} (.unpark 8) rfl trivial
  have r₅ := r₄.next {} (.park false 0 16) rfl trivial
  have r₆ := r₅.next {} (.threads (.scheduler .step)) rfl trivial
  have r₇ := r₆.next {} (.park false 0 16) rfl trivial
  have r₈ := r₇.next {} (.threads (.scheduler .step)) rfl trivial
  refine ⟨_, r₈, rfl, rfl, fun h => ?_⟩
  have hle : 2 + 0 ≤ 1 := h.consumed 0
  omega

end BJvm.Threads
