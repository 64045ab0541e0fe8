import BJvm.Proofs.Monitors
import BJvm.Proofs.Notify
import BJvm.Proofs.RoundRobin

/-!
# Threads that enter a monitor are woken

The scheduler finds a blocked thread by its wakeup record, and `monitor_exit_handler` marks the first
one of the monitor.  That works as long as nothing else is written where a record lies: the record of
`monitor_acquire` lies in a C frame that is gone.
-/

namespace BJvm.Threads

open Function (update)

variable {s s' : Scheduler} {w w' : World} {t t' : ThreadId} {o o' : Object} {a : Addr} {env : Env}
  {x : Option Addr} {mem mem' : Memory} {info : ThreadInfo} {e : Event}

/-! ### Where the records lie -/

/-- The scheduler has the thread, with this address. -/
def Scheduler.At (s : Scheduler) (t : ThreadId) (x : Option Addr) : Prop :=
  ∃ info ∈ s.roundRobin, info.thread = t ∧ info.wakeupInfo = x

theorem at_setInfo (f : ThreadInfo → ThreadInfo) (hf : ∀ info, (f info).thread = info.thread)
    (h : t' ≠ t) : (s.setInfo t f).At t' x ↔ s.At t' x := by
  unfold Scheduler.At Scheduler.setInfo
  constructor
  · rintro ⟨info, hinfo, ht, hx⟩
    obtain ⟨y, hy, rfl⟩ := List.mem_map.mp hinfo
    split_ifs at ht hx with hyt
    · rw [hf] at ht
      exact absurd (ht.symm.trans hyt) h
    · exact ⟨y, hy, ht, hx⟩
  · rintro ⟨info, hinfo, ht, hx⟩
    refine ⟨info, List.mem_map.mpr ⟨info, hinfo, if_neg ?_⟩, ht, hx⟩
    rw [ht]
    exact h

theorem at_setInfo_self (f : ThreadInfo → ThreadInfo) (hf : ∀ info, (f info).thread = info.thread)
    (hx : ∀ info, (f info).wakeupInfo = x) (ht : ∃ y, s.At t y) {y : Option Addr} :
    (s.setInfo t f).At t y ↔ y = x := by
  unfold Scheduler.At Scheduler.setInfo
  constructor
  · rintro ⟨info, hinfo, ht, rfl⟩
    obtain ⟨z, hz, rfl⟩ := List.mem_map.mp hinfo
    split_ifs at ht ⊢ with hzt
    · exact hx z
    · exact absurd ht hzt
  · rintro rfl
    obtain ⟨z, info, hinfo, ht, -⟩ := ht
    exact ⟨f info, List.mem_map.mpr ⟨info, hinfo, if_pos ht⟩, by rw [hf, ht], hx info⟩

/-- A change that keeps the addresses. -/
theorem at_setInfo_same (f : ThreadInfo → ThreadInfo) (hf : ∀ info, (f info).thread = info.thread)
    (hx : ∀ info, (f info).wakeupInfo = info.wakeupInfo) :
    (s.setInfo t f).At t' x ↔ s.At t' x := by
  unfold Scheduler.At Scheduler.setInfo
  constructor
  · rintro ⟨info, hinfo, ht, rfl⟩
    obtain ⟨z, hz, rfl⟩ := List.mem_map.mp hinfo
    split_ifs at ht ⊢ with hzt
    · exact ⟨z, hz, by rw [← ht, hf], (hx z).symm⟩
    · exact ⟨z, hz, ht, rfl⟩
  · rintro ⟨info, hinfo, ht, rfl⟩
    refine ⟨_, List.mem_map.mpr ⟨info, hinfo, rfl⟩, ?_, ?_⟩
    · split_ifs
      · rw [hf, ht]
      · exact ht
    · split_ifs
      · exact hx info
      · rfl

theorem at_run : (s.run t).At t' x ↔ s.At t' x ∨ (t' = t ∧ x = none ∧ ∀ y, ¬ s.At t y) := by
  unfold Scheduler.run
  refine Iff.trans (at_setInfo_same (s := s.getOrCreateThreadInfo t)
    (enqueue (s.getOrCreateThreadInfo t).recordCount) (fun _ => rfl) fun _ => rfl) ?_
  unfold Scheduler.getOrCreateThreadInfo
  split_ifs with hany
  · refine ⟨Or.inl, fun h => h.resolve_right fun ⟨_, _, hno⟩ => ?_⟩
    obtain ⟨info, hinfo, ht⟩ := List.any_eq_true.mp hany
    exact hno info.wakeupInfo ⟨info, hinfo, of_decide_eq_true ht, rfl⟩
  · have hno : ∀ y, ¬ s.At t y := fun y ⟨info, hinfo, ht, _⟩ =>
      hany (List.any_eq_true.mpr ⟨info, hinfo, by simpa using ht⟩)
    unfold Scheduler.At
    simp only [List.mem_append, List.mem_singleton]
    constructor
    · rintro ⟨info, hinfo | rfl, ht, hx⟩
      · exact Or.inl ⟨info, hinfo, ht, hx⟩
      · exact Or.inr ⟨ht.symm, hx.symm, hno⟩
    · rintro (⟨info, hinfo, ht, hx⟩ | ⟨rfl, rfl, -⟩)
      · exact ⟨info, Or.inl hinfo, ht, hx⟩
      · exact ⟨_, Or.inr rfl, rfl, rfl⟩

theorem at_callNotReady (ht : ∃ y, s.At t y) :
    (s.callNotReady t a).At t' x ↔ if t' = t then x = some a else s.At t' x := by
  split_ifs with h
  · subst h
    exact at_setInfo_self (fun info => { info with wakeupInfo := some a }) (fun _ => rfl)
      (fun _ => rfl) ht
  · exact at_setInfo (fun info => { info with wakeupInfo := some a }) (fun _ => rfl) h

theorem exists_at (h : queueOf s.roundRobin t ≠ []) : ∃ x, s.At t x := by
  by_cases ht : t ∈ s.roundRobin.map ThreadInfo.thread
  · obtain ⟨info, hinfo, ht⟩ := List.mem_map.mp ht
    exact ⟨info.wakeupInfo, info, hinfo, ht, rfl⟩
  · exact absurd (queueOf_of_not_mem ht) h

theorem at_perm {infos : List ThreadInfo} (h : infos.Perm s.roundRobin) :
    ({ s with roundRobin := infos } : Scheduler).At t x ↔ s.At t x := by
  unfold Scheduler.At
  simp only [h.mem_iff]

/-! ### Marks -/

/-- Some records are marked, and nothing else changes. -/
def Marks (mem mem' : Memory) : Prop :=
  ∀ a, mem' a = mem a ∨ mem' a = { mem a with ready := true }

namespace Marks

theorem refl (mem : Memory) : Marks mem mem := fun _ => Or.inl rfl

theorem kind (h : Marks mem mem') : (mem' a).kind = (mem a).kind := by
  rcases h a with h | h <;> rw [h]

theorem monitor (h : Marks mem mem') : (mem' a).monitor = (mem a).monitor := by
  rcases h a with h | h <;> rw [h]

theorem ready (h : Marks mem mem') (hr : (mem a).ready = true) : (mem' a).ready = true := by
  rcases h a with h | h
  · rw [h, hr]
  · rw [h]

theorem mark (info : ThreadInfo) (mem : Memory) : Marks mem (info.mark mem) := by
  intro a
  by_cases h : info.wakeupInfo = some a
  · rw [mark_of_some h, Function.update_self]
    exact Or.inr rfl
  · exact Or.inl (mark_of_ne h)

theorem trans {mem'' : Memory} (h : Marks mem mem') (h' : Marks mem' mem'') : Marks mem mem'' := by
  intro a
  rcases h' a with h' | h' <;> rcases h a with h | h <;> rw [h', h] <;> simp

theorem markFirst (kind : WakeupKind) (o : Object) (infos : List ThreadInfo) (mem : Memory) :
    Marks mem (markFirst kind o infos mem) := by
  rw [markFirst_eq]
  cases infos.find? fun info => info.waits mem kind o with
  | none => exact refl mem
  | some info => exact mark info mem

theorem notifyAll (o : Object) (infos : List ThreadInfo) (mem : Memory) :
    Marks mem (monitorNotifyAll infos o mem) := by
  unfold monitorNotifyAll
  induction infos generalizing mem with
  | nil => exact refl mem
  | cons info infos ih =>
    rw [List.foldl_cons]
    split_ifs
    · exact (mark info mem).trans (ih _)
    · exact ih _

end Marks

/-- When a call has finished, its thread may be taken out; the others stay where they are. -/
theorem at_unshift (h : t' ≠ t) (obj : Object) : (s.unshift t obj).At t' x ↔ s.At t' x := by
  have hset : (s.setInfo t dequeue).At t' x ↔ s.At t' x := at_setInfo dequeue (fun _ => rfl) h
  rw [← hset]
  unfold Scheduler.unshift
  have hdeq : (s.setInfo t fun info => { info with callQueue := info.callQueue.tail }) =
      s.setInfo t dequeue := rfl
  rw [hdeq]
  dsimp only
  split
  · split_ifs
    · unfold Scheduler.At
      refine exists_congr fun info => and_congr_left fun ⟨ht, _⟩ => ?_
      exact List.mem_eraseP_of_neg (by simpa using ht ▸ h)
    · rfl
  · rfl

theorem at_of_unshift (obj : Object) (h : (s.unshift t obj).At t' x) : s.At t' x := by
  have hset : (s.setInfo t dequeue).At t' x ↔ s.At t' x :=
    at_setInfo_same dequeue (fun _ => rfl) fun _ => rfl
  rw [← hset]
  unfold Scheduler.unshift at h
  have hdeq : (s.setInfo t fun info => { info with callQueue := info.callQueue.tail }) =
      s.setInfo t dequeue := rfl
  rw [hdeq] at h
  dsimp only at h
  split at h
  · split_ifs at h
    · obtain ⟨info, hinfo, hx⟩ := h
      exact ⟨info, List.eraseP_subset hinfo, hx⟩
    · exact h
  · exact h

theorem marks_unshift (obj : Object) : Marks s.mem (s.unshift t obj).mem := by
  have hall : ∀ infos, Marks s.mem (monitorNotifyAll infos obj s.mem) := fun infos =>
    Marks.notifyAll obj infos s.mem
  unfold Scheduler.unshift
  dsimp only
  split
  · split_ifs
    · exact hall _
    · exact Marks.refl _
  · exact Marks.refl _

theorem record_of_waits {kind : WakeupKind} (h : info.waits mem kind o = true) :
    ∃ a, info.wakeupInfo = some a ∧ (mem a).kind = kind ∧ (mem a).monitor = o := by
  unfold ThreadInfo.waits at h
  split at h
  · cases h
  · rename_i a ha
    exact ⟨a, ha, of_decide_eq_true h⟩

theorem running_of_runner (h : w.runner = some t) : w.sched.running = some t := by
  unfold World.runner at h
  split at h
  · cases h
  · rename_i t' ht
    split_ifs at h
    rw [ht, h]

theorem queueOf_getOrCreateThreadInfo (h : SchedulerInv s) (t' : ThreadId) :
    queueOf (s.getOrCreateThreadInfo t).roundRobin t' = queueOf s.roundRobin t' := by
  have hn := (getOrCreateThreadInfo_inv (t := t) h).1.threads
  unfold Scheduler.getOrCreateThreadInfo at hn ⊢
  split_ifs at hn ⊢
  · rfl
  · exact (queueOf_of_append hn rfl t').symm

/-! ### Waking a thread -/

/-- The thread is blocked entering or re-entering the monitor. -/
def World.Entering (w : World) (t : ThreadId) (o : Object) : Prop :=
  w.blocked t = some (.acquire o) ∨ ∃ n a, w.blocked t = some (.reacquire o n a)

/-- What holds of the threads that enter monitors in a run: each blocked thread is known to the
scheduler, by a record that says which monitor it enters, and where a monitor is free, one of the
threads that enter it has been marked or is running. -/
structure WakeInv (w : World) : Prop where
  sched : SchedulerInv w.sched
  queued : ∀ t, w.blocked t ≠ none → queueOf w.sched.roundRobin t ≠ []
  record : ∀ t o x, w.sched.running ≠ some t → w.Entering t o → w.sched.At t x →
    ∃ a, x = some a ∧ (w.sched.mem a).kind = .monitorEnterWaiting ∧ (w.sched.mem a).monitor = o
  sound : ∀ t a, w.sched.At t (some a) → (w.sched.mem a).kind = .monitorEnterWaiting →
    w.Entering t (w.sched.mem a).monitor
  noRecord : ∀ t x, w.sched.running = some t → w.sched.At t x → x = none
  woken : ∀ t o, w.Entering t o → (w.header o).owner = none → ∃ t' x, w.sched.At t' x ∧
    w.Entering t' o ∧ ∀ a, x = some a → (w.sched.mem a).ready = true

namespace WakeInv

theorem blocked_of_entering (h : w.Entering t o) : w.blocked t ≠ none := by
  rcases h with h | ⟨n, a, h⟩ <;> rw [h] <;> exact Option.some_ne_none _

/-- The scheduler takes a step: a blocked thread stays where it is, or runs. -/
theorem schedules (h : WakeInv w) (hs : SchedulerInv s') (hmem : Marks w.sched.mem s'.mem)
    (hqueue : ∀ t, w.blocked t ≠ none → queueOf s'.roundRobin t ≠ [])
    (hstay : ∀ t, w.blocked t ≠ none → w.sched.running = some t → s'.running = some t)
    (hat : ∀ t, w.blocked t ≠ none → (∀ x, s'.At t x ↔ w.sched.At t x) ∨
      (s'.running = some t ∧ ∀ x, s'.At t x ↔ x = none))
    (hold : ∀ t a, s'.At t (some a) → w.sched.At t (some a))
    (hcleared : ∀ t x, s'.running = some t → s'.At t x → x = none) :
    WakeInv { w with sched := s' } where
  sched := hs
  queued := hqueue
  record t o x hrun ht hx := by
    have hb := blocked_of_entering ht
    rcases hat t hb with hat | ⟨hr, -⟩
    · obtain ⟨a, hxa, hkind, ho⟩ := h.record t o x (fun hr => hrun (hstay t hb hr)) ht
        ((hat x).mp hx)
      exact ⟨a, hxa, hmem.kind.trans hkind, hmem.monitor.trans ho⟩
    · exact absurd hr hrun
  sound t a ht hkind := by
    have hkind' : (w.sched.mem a).kind = .monitorEnterWaiting := hmem.kind.symm.trans hkind
    have := h.sound t a (hold t a ht) hkind'
    rw [← hmem.monitor] at this
    exact this
  noRecord := hcleared
  woken t o ht ho := by
    obtain ⟨t', x, hx, ht', hready⟩ := h.woken t o ht ho
    rcases hat t' (blocked_of_entering ht') with hat | ⟨-, hat⟩
    · exact ⟨t', x, (hat x).mpr hx, ht', fun a ha => hmem.ready (hready a ha)⟩
    · exact ⟨t', none, (hat none).mpr rfl, ht', fun a ha => by cases ha⟩

/-- The running thread goes on, and leaves no monitor free that was not. -/
theorem continues (h : WakeInv w) (hs : w'.sched = w.sched) (ht : w.sched.running = some t)
    (hsame : ∀ t', t' ≠ t → w'.blocked t' = w.blocked t') (hb : w'.blocked t = none)
    (howner : ∀ o, (w'.header o).owner = none → (w.header o).owner = none ∧ ¬ w.Entering t o) :
    WakeInv w' := by
  have hentering : ∀ {t' o}, w'.Entering t' o ↔ t' ≠ t ∧ w.Entering t' o := by
    intro t' o
    by_cases htt : t' = t
    · subst htt
      exact ⟨fun h' => absurd hb (blocked_of_entering h'), fun h' => absurd rfl h'.1⟩
    · unfold World.Entering
      rw [hsame t' htt]
      simp [htt]
  have hblocked : ∀ t', w'.blocked t' ≠ none → w.blocked t' ≠ none := by
    intro t' h'
    by_cases htt : t' = t
    · subst htt
      exact absurd hb h'
    · rwa [hsame t' htt] at h'
  constructor
  · rw [hs]
    exact h.sched
  · intro t' h'
    rw [hs]
    exact h.queued t' (hblocked t' h')
  · intro t' o x hrun h' hx
    rw [hs] at hrun hx ⊢
    exact h.record t' o x hrun (hentering.mp h').2 hx
  · intro t' a hx hkind
    rw [hs] at hx hkind ⊢
    refine hentering.mpr ⟨?_, h.sound t' a hx hkind⟩
    rintro rfl
    cases h.noRecord t' _ ht hx
  · intro t' x
    rw [hs]
    exact h.noRecord t' x
  · intro t' o h' ho
    obtain ⟨ho, hne⟩ := howner o ho
    obtain ⟨t₁, x, hx, ht₁, hready⟩ := h.woken t' o (hentering.mp h').2 ho
    rw [hs]
    refine ⟨t₁, x, hx, hentering.mpr ⟨?_, ht₁⟩, hready⟩
    rintro rfl
    exact hne ht₁

/-- The running thread is suspended, and its record is not where another one is. -/
theorem suspends {bl : Option Blocked} {r : WakeupInfo} (h : WakeInv w)
    (ht : w.sched.running = some t)
    (hs : w'.sched = ({ w.sched with mem := update w.sched.mem a r } : Scheduler).callNotReady t a)
    (hb : w'.blocked = update w.blocked t bl) (hheader : w'.header = w.header)
    (hfree : ∀ t', ¬ w.sched.At t' (some a))
    (hleft : ∀ o, (w.header o).owner = none → ¬ w.Entering t o)
    (hrecord : ∀ o, w'.Entering t o → r.kind = .monitorEnterWaiting ∧ r.monitor = o ∧
      (w.header o).owner ≠ none)
    (hkind : r.kind = .monitorEnterWaiting → w'.Entering t r.monitor) : WakeInv w' := by
  have hinv : SchedulerInv { w.sched with mem := update w.sched.mem a r } :=
    h.sched.of_queues h.sched.threads (fun _ => rfl) h.sched.suspended h.sched.running
  have hqueue : ∀ t', queueOf w'.sched.roundRobin t' = queueOf w.sched.roundRobin t' := by
    rw [hs]
    exact queueOf_setInfo_of_eq (fun info => { info with wakeupInfo := some a })
      (fun _ => ⟨rfl, rfl⟩) h.sched.threads
  have hat : ∀ t' x, w'.sched.At t' x ↔ if t' = t then x = some a else w.sched.At t' x := by
    intro t' x
    rw [hs]
    exact at_callNotReady (exists_at (s := { w.sched with mem := update w.sched.mem a r })
      (h.sched.running t ht))
  have hrunning : w'.sched.running = none := by
    rw [hs]
    rfl
  have hmem : w'.sched.mem = update w.sched.mem a r := by
    rw [hs]
    rfl
  have hother : ∀ {t' o}, t' ≠ t → (w'.Entering t' o ↔ w.Entering t' o) := by
    intro t' o htt
    unfold World.Entering
    rw [hb, Function.update_of_ne htt]
  have hmem_other : ∀ {t' a'}, w.sched.At t' (some a') → w'.sched.mem a' = w.sched.mem a' := by
    intro t' a' h'
    rw [hmem, Function.update_of_ne]
    rintro rfl
    exact hfree t' h'
  constructor
  · rw [hs]
    exact callNotReady_inv hinv ht
  · intro t' h'
    rw [hqueue]
    by_cases htt : t' = t
    · subst htt
      exact h.sched.running t' ht
    · rw [hb, Function.update_of_ne htt] at h'
      exact h.queued t' h'
  · intro t' o x _ h' hx
    rw [hat] at hx
    split_ifs at hx with htt
    · subst htt
      obtain ⟨hk, ho, -⟩ := hrecord o h'
      refine ⟨a, hx, ?_⟩
      rw [hmem, Function.update_self]
      exact ⟨hk, ho⟩
    · obtain ⟨a', rfl, hk, ho⟩ := h.record t' o x
        (fun hr => htt (Option.some.inj (hr.symm.trans ht))) ((hother htt).mp h') hx
      refine ⟨a', rfl, ?_⟩
      rw [hmem_other hx]
      exact ⟨hk, ho⟩
  · intro t' a' hx hk
    rw [hat] at hx
    split_ifs at hx with htt
    · cases hx
      subst htt
      rw [hmem, Function.update_self] at hk ⊢
      exact hkind hk
    · rw [hmem_other hx] at hk ⊢
      exact (hother htt).mpr (h.sound t' a' hx hk)
  · intro t' x hr
    rw [hrunning] at hr
    cases hr
  · intro t' o h' ho
    rw [hheader] at ho
    have htt : t' ≠ t := by
      rintro rfl
      exact (hrecord o h').2.2 ho
    obtain ⟨t₁, x, hx, ht₁, hready⟩ := h.woken t' o ((hother htt).mp h') ho
    have htt₁ : t₁ ≠ t := by
      rintro rfl
      exact hleft o ho ht₁
    refine ⟨t₁, x, ?_, (hother htt₁).mpr ht₁, fun a' ha => ?_⟩
    · rw [hat, if_neg htt₁]
      exact hx
    · subst ha
      rw [hmem_other hx]
      exact hready a' rfl

/-- A monitor gets free, and one of the threads that enter it is marked. -/
theorem frees (h : WakeInv w) (data : MonitorData) (ht : w.sched.running = some t)
    (hb : w.blocked t = none) : WakeInv (w.free o data) := by
  have hmarks : Marks w.sched.mem (monitorExitHandler w.sched.roundRobin o w.sched.mem) :=
    Marks.markFirst .monitorEnterWaiting o w.sched.roundRobin w.sched.mem
  have hmarked : WakeInv { w with sched := { w.sched with
      mem := monitorExitHandler w.sched.roundRobin o w.sched.mem } } := h.schedules
    (h.sched.of_queues h.sched.threads (fun _ => rfl) h.sched.suspended h.sched.running) hmarks
    h.queued (fun _ _ hr => hr) (fun _ _ => Or.inl fun _ => Iff.rfl) (fun _ _ h' => h') h.noRecord
  refine ⟨hmarked.sched, hmarked.queued, hmarked.record, hmarked.sound, hmarked.noRecord,
    fun t' o' ht' ho' => ?_⟩
  have hent : w.Entering t' o' := ht'
  by_cases ho : o' = o
  · subst ho
    have htt : w.sched.running ≠ some t' := fun hr => by
      cases hr.symm.trans ht
      exact blocked_of_entering hent hb
    obtain ⟨x, hx⟩ := exists_at (h.queued t' (blocked_of_entering hent))
    obtain ⟨a, rfl, hkind, ho⟩ := h.record t' o' x htt hent hx
    -- somebody is found, and it is a thread that enters the monitor
    cases hfind : w.sched.roundRobin.find? fun info =>
        info.waits w.sched.mem .monitorEnterWaiting o' with
    | none =>
      exfalso
      obtain ⟨info, hinfo, -, hrec⟩ := hx
      refine List.find?_eq_none.mp hfind info hinfo ?_
      unfold ThreadInfo.waits
      rw [hrec]
      simp [hkind, ho]
    | some info =>
      have hinfo := List.mem_of_find?_eq_some hfind
      have hwaits : info.waits w.sched.mem .monitorEnterWaiting o' = true := waits_of_find? hfind
      obtain ⟨b, hrec, hk, hm⟩ := record_of_waits hwaits
      have hat : w.sched.At info.thread (some b) := ⟨info, hinfo, rfl, hrec⟩
      refine ⟨info.thread, some b, hat, ?_, fun c hc => ?_⟩
      · have := h.sound info.thread b hat hk
        rwa [hm] at this
      · cases hc
        show (monitorExitHandler w.sched.roundRobin o' w.sched.mem b).ready = true
        unfold monitorExitHandler
        rw [markFirst_eq, hfind, Option.elim_some, mark_of_some hrec, Function.update_self]
  · refine hmarked.woken t' o' ht' ?_
    have : ((update w.header o (.expanded { data with tid := none, holdCount := 0 })) o').owner =
        none := ho'
    rwa [Function.update_of_ne ho] at this

/-- What does not concern the scheduler, the blocked threads and the owners. -/
theorem of_owners (h : WakeInv w) (hs : w'.sched = w.sched) (hb : w'.blocked = w.blocked)
    (howner : ∀ o, (w'.header o).owner = (w.header o).owner) : WakeInv w' := by
  have hentering : ∀ {t o}, w'.Entering t o ↔ w.Entering t o := by
    intro t o
    unfold World.Entering
    rw [hb]
  constructor
  · rw [hs]
    exact h.sched
  · rw [hs, hb]
    exact h.queued
  · intro t o x
    rw [hs, hentering]
    exact h.record t o x
  · intro t a
    rw [hs, hentering]
    exact h.sound t a
  · rw [hs]
    exact h.noRecord
  · intro t o
    rw [hs, hentering, howner]
    simp only [hentering]
    exact h.woken t o

/-! ### Entering and leaving -/

theorem owner_setMonitor {data : MonitorData} : ((w.setMonitor o data).header o').owner =
    if o' = o then data.tid else (w.header o').owner := by
  unfold World.setMonitor
  dsimp only
  split_ifs with h
  · subst h
    rw [Function.update_self]
    rfl
  · rw [Function.update_of_ne h]

theorem entering_block {b : Blocked} {r : WakeupInfo} :
    (w.block t b a r).Entering t o ↔ b = .acquire o ∨ ∃ n c, b = .reacquire o n c := by
  unfold World.Entering World.block
  dsimp only
  rw [Function.update_self]
  simp only [Option.some.injEq]

/-- The running thread can enter no other monitor than this one, and takes it. -/
theorem takes {data : MonitorData} (h : WakeInv w) (ht : w.sched.running = some t)
    (hmay : ∀ o', w.Entering t o' → o' = o) (howned : data.tid = some t)
    (hs : w'.sched = w.sched) (hb : w'.blocked = update w.blocked t none)
    (hheader : w'.header = (w.setMonitor o data).header) : WakeInv w' := by
  refine h.continues hs ht (fun t' htt => ?_) ?_ fun o' ho' => ?_
  · rw [hb, Function.update_of_ne htt]
  · rw [hb, Function.update_self]
  · rw [hheader, owner_setMonitor] at ho'
    split_ifs at ho' with heq
    · rw [howned] at ho'
      cases ho'
    · exact ⟨ho', fun h' => heq (hmay o' h')⟩

theorem acquireLoop (h : WakeInv w) (ht : w.sched.running = some t)
    (hmay : ∀ o', w.Entering t o' → o' = o) (hfree : ∀ t', ¬ w.sched.At t' (some a)) :
    WakeInv (w.acquireLoop t o a) := by
  have howner := owner_eq (w.header o)
  unfold World.acquireLoop
  dsimp only
  split
  · exact h.takes ht hmay rfl rfl rfl rfl
  · rename_i owner htid
    split_ifs with heq
    · subst heq
      refine h.takes ht hmay ?_ rfl rfl rfl
      exact htid
    · have hheld : (w.header o).owner ≠ none := by
        rw [howner, htid]
        exact Option.some_ne_none _
      refine h.suspends ht rfl rfl rfl hfree (fun o' ho' h' => ?_) (fun o' h' => ?_) fun _ => ?_
      · rw [hmay o' h'] at ho'
        exact hheld ho'
      · rw [entering_block] at h'
        rcases h' with h' | ⟨n, c, h'⟩
        · cases h'
          exact ⟨rfl, rfl, hheld⟩
        · cases h'
      · exact entering_block.mpr (Or.inl rfl)

theorem monitorAcquire {allocFails : Bool} (h : WakeInv w) (ht : w.sched.running = some t)
    (hb : w.blocked t = none) (hfree : ∀ t', ¬ w.sched.At t' (some a)) :
    WakeInv (w.monitorAcquire t o allocFails a) := by
  have hmay : ∀ o', w.Entering t o' → o' = o := fun o' h' => absurd hb (blocked_of_entering h')
  unfold World.monitorAcquire
  split
  · rename_i word hw
    split_ifs
    · exact h.of_owners rfl rfl fun _ => rfl
    · refine (h.of_owners rfl rfl fun o' => ?_ : WakeInv (w.setMonitor o _)).acquireLoop ht hmay hfree
      rw [owner_setMonitor]
      split_ifs with heq
      · rw [heq, hw]
        rfl
      · rfl
  · exact h.acquireLoop ht hmay hfree

theorem monitorReacquire {n : Nat} {r : WakeupInfo} (h : WakeInv w) (ht : w.sched.running = some t)
    (hmay : ∀ o', w.Entering t o' → o' = o) (hfree : ∀ t', ¬ w.sched.At t' (some a)) :
    WakeInv (w.monitorReacquire t o n a r) := by
  have howner := owner_eq (w.header o)
  unfold World.monitorReacquire
  dsimp only
  split
  · exact h.takes ht hmay rfl rfl rfl rfl
  · rename_i owner htid
    have hheld : (w.header o).owner ≠ none := by
      rw [howner, htid]
      exact Option.some_ne_none _
    split_ifs with heq
    · refine h.continues rfl ht (fun t' htt => Function.update_of_ne htt ..)
        (Function.update_self ..) fun o' ho' => ⟨ho', fun h' => ?_⟩
      rw [hmay o' h'] at ho'
      exact hheld ho'
    · refine h.suspends ht rfl rfl rfl hfree (fun o' ho' h' => ?_) (fun o' h' => ?_) fun _ => ?_
      · rw [hmay o' h'] at ho'
        exact hheld ho'
      · rw [entering_block] at h'
        rcases h' with h' | ⟨n, c, h'⟩
        · cases h'
        · cases h'
          exact ⟨rfl, rfl, hheld⟩
      · exact entering_block.mpr (Or.inr ⟨n, a, rfl⟩)

theorem monitorexit (h : WakeInv w) (ht : w.sched.running = some t) (hb : w.blocked t = none) :
    WakeInv (w.monitorexit t o) := by
  have hraise : WakeInv (w.raise t .illegalMonitorState) := h.of_owners rfl rfl fun _ => rfl
  unfold World.monitorexit World.monitorRelease
  cases hw : w.header o with
  | markWord word => exact hraise
  | expanded data =>
    dsimp only [HeaderWord.inspectMonitor]
    by_cases hnot : data.tid ≠ some t ∨ data.holdCount = 0
    · rw [if_pos hnot]
      exact hraise
    · rw [if_neg hnot]
      split_ifs
      · exact (h.frees data ht hb).of_owners rfl rfl fun _ => rfl
      · refine h.of_owners rfl rfl fun o' => ?_
        show ((w.setMonitor o { data with holdCount := data.holdCount - 1 }).header o').owner = _
        rw [owner_setMonitor]
        split_ifs with heq
        · rw [heq, hw]
          rfl
        · rfl

theorem wait0 {interrupted : Bool} {wakeupUs : Nat} (h : WakeInv w) (ht : w.sched.running = some t)
    (hb : w.blocked t = none) (hfree : ∀ t', ¬ w.sched.At t' (some a)) :
    WakeInv (w.wait0 t o interrupted wakeupUs a) := by
  have hraise : ∀ e, WakeInv (w.raise t e) := fun e => h.of_owners rfl rfl fun _ => rfl
  have hmay : ∀ o', ¬ w.Entering t o' := fun o' h' => blocked_of_entering h' hb
  unfold World.wait0 World.monitorReleaseAllHoldCount
  split_ifs
  · exact hraise _
  · cases hw : w.header o with
    | markWord word =>
      dsimp only [HeaderWord.inspectMonitor]
      rw [if_pos rfl]
      exact hraise _
    | expanded data =>
      dsimp only [HeaderWord.inspectMonitor]
      by_cases hnot : data.tid ≠ some t ∨ data.holdCount = 0
      · rw [if_pos hnot]
        dsimp only
        rw [if_pos rfl]
        exact hraise _
      · rw [if_neg hnot]
        rw [not_or] at hnot
        dsimp only
        rw [if_neg hnot.2]
        refine (h.frees (o := o) data ht hb).suspends ht rfl rfl rfl hfree
          (fun o' _ => hmay o') (fun o' h' => ?_) fun hk => by cases hk
        rw [entering_block] at h'
        rcases h' with h' | ⟨n, c, h'⟩ <;> cases h'

/-! ### The scheduler -/

/-- A blocked thread does not run a routine of its own. -/
theorem ne_runner (hr : w.runner = some t) (hb : w.blocked t' ≠ none) : t' ≠ t := by
  rintro rfl
  exact hb (runner_blocked hr)

theorem run (h : WakeInv w) : WakeInv { w with sched := w.sched.run t } := by
  have hinv := run_inv (t := t) h.sched
  have hqueue : ∀ t', queueOf w.sched.roundRobin t' ≠ [] →
      queueOf (w.sched.run t).roundRobin t' ≠ [] := by
    intro t' hq
    obtain ⟨hcreated, hmem⟩ := getOrCreateThreadInfo_inv (t := t) h.sched
    show queueOf ((w.sched.getOrCreateThreadInfo t).setInfo t (enqueue _)).roundRobin t' ≠ []
    rw [queueOf_enqueue hcreated.threads hmem, queueOf_getOrCreateThreadInfo h.sched]
    split_ifs
    · simp
    · exact hq
  have hmem : (w.sched.run t).mem = w.sched.mem := by
    show (w.sched.getOrCreateThreadInfo t).mem = _
    unfold Scheduler.getOrCreateThreadInfo
    split_ifs <;> rfl
  have hrunning : (w.sched.run t).running = w.sched.running := by
    show (w.sched.getOrCreateThreadInfo t).running = _
    unfold Scheduler.getOrCreateThreadInfo
    split_ifs <;> rfl
  refine h.schedules hinv (by rw [hmem]; exact Marks.refl _) (fun t' hb => hqueue t' (h.queued t' hb))
    (fun t' _ hr => hrunning.trans hr) (fun t' hb => Or.inl fun x => ?_) (fun t' a hx => ?_)
    fun t' x hr hx => ?_
  · rw [at_run]
    refine or_iff_left fun ⟨ht, _, hno⟩ => ?_
    subst ht
    obtain ⟨y, hy⟩ := exists_at (h.queued t' hb)
    exact hno y hy
  · rcases at_run.mp hx with hx | ⟨-, hx, -⟩
    · exact hx
    · cases hx
  · rcases at_run.mp hx with hx | ⟨-, hx, -⟩
    · exact h.noRecord t' x (hrunning ▸ hr) hx
    · exact hx

theorem schedulerStep (h : WakeInv w) (hrunning : w.sched.running = none) :
    WakeInv { w with sched := w.sched.step env } := by
  have hinv : SchedulerInv (w.sched.step env) := step_inv h.sched
  obtain ⟨infos, hperm, hcases⟩ := step_cases env h.sched.threads h.sched.suspended
  have hn : (infos.map ThreadInfo.thread).Nodup := (hperm.map _).nodup_iff.mpr h.sched.threads
  have hqueue := queueOf_perm h.sched.threads hperm
  have hat : ∀ {t x}, ({ w.sched with roundRobin := infos } : Scheduler).At t x ↔ w.sched.At t x :=
    at_perm hperm
  have hnone : ∀ {t}, w.sched.running ≠ some t := fun hr => by
    rw [hrunning] at hr
    cases hr
  rcases hcases with hstep | ⟨l, info, rfl, hempty, hstep⟩ | ⟨info, hinfo, hne, hstep⟩
  · rw [hstep] at hinv ⊢
    exact h.schedules hinv (Marks.refl _) (fun t hb => by rw [hqueue]; exact h.queued t hb)
      (fun _ _ hr => absurd hr hnone) (fun _ _ => Or.inl fun _ => hat) (fun _ _ hx => hat.mp hx)
      fun _ _ hr => absurd hr hnone
  · rw [hstep] at hinv ⊢
    have hdrop := queueOf_of_append hn hempty
    refine h.schedules hinv (Marks.refl _) (fun t hb => ?_) (fun _ _ hr => absurd hr hnone)
      (fun t hb => Or.inl fun x => ?_) (fun t a hx => ?_) fun _ _ hr => absurd hr hnone
    · rw [hdrop, hqueue]
      exact h.queued t hb
    · rw [← hat]
      unfold Scheduler.At
      refine exists_congr fun x => and_congr_left fun ⟨hx, _⟩ => ?_
      rw [List.mem_append, List.mem_singleton]
      refine (or_iff_left ?_).symm
      rintro rfl
      have hq := h.queued t hb
      rw [← hqueue, ← hx, queueOf_of_mem hn (by simp)] at hq
      exact hq hempty
    · obtain ⟨info, hinfo, ht⟩ := hx
      exact hat.mp ⟨info, List.mem_append_left _ hinfo, ht⟩
  · rw [hstep] at hinv ⊢
    have hqueue' := queueOf_setInfo_of_eq (s := { w.sched with roundRobin := infos })
      (t := info.thread) cleared (fun _ => ⟨rfl, rfl⟩) hn
    have hself : ∀ {x}, (({ w.sched with roundRobin := infos } : Scheduler).setInfo info.thread
        cleared).At info.thread x ↔ x = none :=
      at_setInfo_self cleared (fun _ => rfl) (fun _ => rfl) ⟨_, info, hinfo, rfl, rfl⟩
    refine h.schedules hinv (Marks.refl _) (fun t hb => ?_) (fun _ _ hr => absurd hr hnone)
      (fun t hb => ?_) (fun t a hx => ?_) fun t x hr hx => ?_
    · show queueOf (({ w.sched with roundRobin := infos } : Scheduler).setInfo info.thread
        cleared).roundRobin t ≠ []
      rw [hqueue', hqueue]
      exact h.queued t hb
    · by_cases ht : t = info.thread
      · subst ht
        exact Or.inr ⟨rfl, fun x => hself⟩
      · exact Or.inl fun x => (at_setInfo cleared (fun _ => rfl) ht).trans hat
    · by_cases ht : t = info.thread
      · subst ht
        cases hself.mp hx
      · exact hat.mp ((at_setInfo cleared (fun _ => rfl) ht).mp hx)
    · cases hr
      exact hself.mp hx

theorem finish {r : Nat} {result : CallResult} (h : WakeInv w) (hr : w.runner = some t)
    (hq : (queueOf w.sched.roundRobin t).head? = some r) :
    WakeInv { w with sched := w.sched.callReady t r result env } := by
  have hinv : SchedulerInv (w.sched.callReady t r result env) := callReady_inv h.sched hq
  unfold Scheduler.callReady at hinv ⊢
  generalize hs : ({ w.sched with
    running := none
    records := update w.sched.records r
      { isDone := true
        returned := result.returned
        jsHandle := if result.isReference && result.returned ≠ 0 then some result.jsHandle
          else none }
    finished := w.sched.finished ++ [(t, r, result.returned)] } : Scheduler) = s₁ at hinv ⊢
  have hrr : s₁.roundRobin = w.sched.roundRobin := by rw [← hs]
  have hmem : s₁.mem = w.sched.mem := by rw [← hs]
  have hrunning : s₁.running = none := by rw [← hs]
  have hat : ∀ {t x}, s₁.At t x ↔ w.sched.At t x := by
    intro t x
    unfold Scheduler.At
    rw [hrr]
  have hne : queueOf s₁.roundRobin t ≠ [] := by
    rw [hrr]
    intro hnil
    rw [hnil] at hq
    cases hq
  obtain ⟨-, hqueues, -, hrunning', -⟩ :=
    unshift_queues (hrr ▸ h.sched.threads) hne (env.threadObj t)
  have hnone : ∀ {t'}, (s₁.unshift t (env.threadObj t)).running ≠ some t' := fun hr' => by
    rw [hrunning', hrunning] at hr'
    cases hr'
  have ht : w.sched.running = some t := running_of_runner hr
  refine h.schedules hinv (hmem ▸ marks_unshift _) (fun t' hb => ?_)
    (fun t' hb hr' => absurd (Option.some.inj (hr'.symm.trans ht)) (ne_runner hr hb))
    (fun t' hb => Or.inl fun x => (at_unshift (ne_runner hr hb) _).trans hat)
    (fun t' a hx => hat.mp (at_of_unshift _ hx)) fun _ _ hr' => absurd hr' hnone
  rw [hqueues, if_neg (ne_runner hr hb), hrr]
  exact h.queued t' hb

end WakeInv

/-- The program writes where no record of a suspended thread lies. -/
theorem WakeInv.writes {r : WakeupInfo} (h : WakeInv w) (hfree : ∀ t, ¬ w.sched.At t (some a)) :
    WakeInv { w with sched := { w.sched with mem := update w.sched.mem a r } } := by
  have hkept : ∀ {t b}, w.sched.At t (some b) → update w.sched.mem a r b = w.sched.mem b := by
    intro t b hb
    rw [Function.update_of_ne]
    rintro rfl
    exact hfree t hb
  refine ⟨h.sched.of_queues h.sched.threads (fun _ => rfl) h.sched.suspended h.sched.running,
    h.queued, fun t o x hrun ht hx => ?_, fun t b hb hk => ?_, h.noRecord, fun t o ht ho => ?_⟩
  · obtain ⟨b, rfl, hk⟩ := h.record t o x hrun ht hx
    refine ⟨b, rfl, ?_⟩
    show (update w.sched.mem a r b).kind = _ ∧ (update w.sched.mem a r b).monitor = _
    rw [hkept hx]
    exact hk
  · have hat : w.sched.At t (some b) := hb
    have hk' : (update w.sched.mem a r b).kind = .monitorEnterWaiting := hk
    show w.Entering t (update w.sched.mem a r b).monitor
    rw [hkept hat] at hk' ⊢
    exact h.sound t b hat hk'
  · obtain ⟨t', x, hx, ht', hready⟩ := h.woken t o ht ho
    refine ⟨t', x, hx, ht', fun b hb => ?_⟩
    subst hb
    show (update w.sched.mem a r b).ready = true
    rw [hkept hx]
    exact hready b rfl

/-! ### Runs -/

/-- Where the step puts a record, or writes something else. -/
def World.writesAt (w : World) : Event → Option Addr
  | .monitorAcquire _ _ a | .wait _ _ _ a | .suspend a _ | .write a _ => some a
  | .resume a =>
    match w.sched.running.bind w.blocked with
    | some (.reacquire _ _ record) => some record
    | _ => some a
  | _ => none

/-- The step does not write where the record of a suspended thread lies. -/
def RecordsKept (_ : Env) (w : World) (e : Event) : Prop :=
  ∀ a, w.writesAt e = some a → ∀ t, ¬ w.sched.At t (some a)

theorem not_at_iff : (∀ t, ¬ s.At t x) ↔ ∀ info ∈ s.roundRobin, info.wakeupInfo ≠ x :=
  ⟨fun h info hinfo hx => h info.thread ⟨info, hinfo, rfl, hx⟩,
    fun h _ ⟨info, hinfo, _, hx⟩ => h info hinfo hx⟩

instance : Decidable (RecordsKept env w e) :=
  decidable_of_iff (∀ a ∈ w.writesAt e, ∀ info ∈ w.sched.roundRobin, info.wakeupInfo ≠ some a)
    (forall₂_congr fun _ _ => not_at_iff.symm)

/-- Where a monitor is free that threads are entering or re-entering, one of them can run. -/
def NoLostWakeup (w : World) : Prop :=
  ∀ o, (w.header o).owner = none → (∃ t, w.Entering t o) → ∃ info ∈ w.sched.roundRobin,
    w.Entering info.thread o ∧ ∀ m time, isSleeping m w.sched.mem time info = false

theorem WakeInv.noLostWakeup (h : WakeInv w) : NoLostWakeup w := by
  intro o ho ⟨t, ht⟩
  obtain ⟨t', x, ⟨info, hinfo, rfl, rfl⟩, ht', hready⟩ := h.woken t o ht ho
  refine ⟨info, hinfo, ht', fun m time => ?_⟩
  unfold isSleeping
  cases hx : info.wakeupInfo with
  | none => rfl
  | some a =>
    by_cases hrun : w.sched.running = some info.thread
    · have := h.noRecord info.thread _ hrun ⟨info, hinfo, rfl, rfl⟩
      rw [this] at hx
      cases hx
    · obtain ⟨b, hb, hkind, -⟩ := h.record info.thread o _ hrun ht' ⟨info, hinfo, rfl, rfl⟩
      cases hx.symm.trans hb
      simp [hkind, hready a hx]

theorem WakeInv.step (h : WakeInv w) (hstep : w.step env e = some w') (he : RecordsKept env w e) :
    WakeInv w' := by
  cases e with
  | run t =>
    simp only [World.step, Op.apply, Option.map_eq_some_iff] at hstep
    obtain ⟨sched, hsched, rfl⟩ := hstep
    split_ifs at hsched
    cases hsched
    exact h.run
  | step =>
    simp only [World.step, Op.apply, Option.map_eq_some_iff] at hstep
    obtain ⟨sched, hsched, rfl⟩ := hstep
    split_ifs at hsched with hrunning
    cases hsched
    exact h.schedulerStep hrunning
  | monitorAcquire o allocFails a =>
    simp only [World.step, Option.map_eq_some_iff] at hstep
    obtain ⟨t, ht, rfl⟩ := hstep
    exact h.monitorAcquire (running_of_runner ht) (runner_blocked ht) (he a rfl)
  | monitorexit o =>
    simp only [World.step, Option.map_eq_some_iff] at hstep
    obtain ⟨t, ht, rfl⟩ := hstep
    exact h.monitorexit (running_of_runner ht) (runner_blocked ht)
  | wait o interrupted wakeupUs a =>
    simp only [World.step, Option.map_eq_some_iff] at hstep
    obtain ⟨t, ht, rfl⟩ := hstep
    exact h.wait0 (running_of_runner ht) (runner_blocked ht) (he a rfl)
  | resume a =>
    simp only [World.step, Option.bind_eq_some_iff] at hstep
    obtain ⟨t, ht, hr⟩ := hstep
    unfold RecordsKept World.writesAt at he
    simp only [ht, Option.bind_some] at he
    unfold World.resume at hr
    have hmay : ∀ {o}, (∀ o', w.blocked t = some (.acquire o') → o' = o) →
        (∀ o' n b, w.blocked t = some (.reacquire o' n b) → o' = o) →
        ∀ o', w.Entering t o' → o' = o := by
      rintro o h₁ h₂ o' (hb | ⟨n, b, hb⟩)
      · exact h₁ o' hb
      · exact h₂ o' n b hb
    split at hr
    · cases hr
    · rename_i o hb
      cases hr
      rw [hb] at he hmay
      exact h.acquireLoop ht (hmay (fun o' h' => by cases h'; rfl) fun o' n b h' => by cases h')
        (he a rfl)
    · rename_i o n hb
      cases hr
      rw [hb] at he hmay
      exact h.monitorReacquire ht (hmay (fun o' h' => by cases h') fun o' n b h' => by cases h')
        (he a rfl)
    · rename_i o n record hb
      cases hr
      rw [hb] at he hmay
      exact h.monitorReacquire ht
        (hmay (fun o' h' => by cases h') fun o' n b h' => by cases h'; rfl) (he record rfl)
  | notify o all =>
    simp only [World.step, Option.map_eq_some_iff] at hstep
    obtain ⟨t, -, rfl⟩ := hstep
    have hmarks : ∀ {mem}, Marks w.sched.mem mem →
        WakeInv { w with sched := { w.sched with mem := mem } } := fun hmem =>
      h.schedules (h.sched.of_queues h.sched.threads (fun _ => rfl) h.sched.suspended h.sched.running)
        hmem h.queued (fun _ _ hr => hr) (fun _ _ => Or.inl fun _ => Iff.rfl) (fun _ _ hx => hx)
        h.noRecord
    unfold World.notify
    split_ifs
    · exact h.of_owners rfl rfl fun _ => rfl
    · exact hmarks (Marks.notifyAll o w.sched.roundRobin w.sched.mem)
    · exact hmarks (Marks.markFirst .monitorWait o w.sched.roundRobin w.sched.mem)
  | hashCode o next =>
    simp only [World.step] at hstep
    split_ifs at hstep
    rw [Option.map_eq_some_iff] at hstep
    obtain ⟨t, -, rfl⟩ := hstep
    refine h.of_owners rfl rfl fun o' => ?_
    have howner : ∀ (header : HeaderWord) k, (header.setHash k).owner = header.owner := by
      rintro (word | data) k <;> rfl
    unfold World.getObjectHashCode
    dsimp only
    by_cases ho : o' = o
    · subst ho
      rw [Function.update_self, howner]
    · rw [Function.update_of_ne ho]
  | suspend a info =>
    simp only [World.step] at hstep
    split_ifs at hstep with hkind
    rw [Option.map_eq_some_iff] at hstep
    obtain ⟨t, ht, rfl⟩ := hstep
    have hb := runner_blocked ht
    have hno : ∀ o, ¬ w.Entering t o := fun o h' => WakeInv.blocked_of_entering h' hb
    have hb' : w.blocked = update w.blocked t none := by
      rw [← hb]
      exact (Function.update_eq_self t w.blocked).symm
    refine h.suspends (running_of_runner ht) rfl hb' rfl (he a rfl) (fun o _ => hno o)
      (fun o h' => absurd h' (hno o)) fun hk => ?_
    rw [hk] at hkind
    exact absurd rfl hkind
  | finish result =>
    simp only [World.step, Op.apply, Option.bind_eq_some_iff, Option.map_eq_some_iff,
      Option.bind_eq_bind, Option.some.injEq] at hstep
    obtain ⟨t, ht, sched, ⟨t', ht', info, hinfo, r, hr, rfl⟩, rfl⟩ := hstep
    cases (running_of_runner ht).symm.trans ht'
    refine h.finish ht ?_
    unfold queueOf
    rw [hinfo]
    exact hr
  | write a info =>
    cases hstep
    exact h.writes (he a rfl)

theorem WakeInv.start : WakeInv {} :=
  ⟨start_schedulerInv, fun _ h => absurd rfl h, fun _ _ _ _ h => absurd rfl (blocked_of_entering h),
    fun _ _ ⟨_, h, _⟩ => absurd h List.not_mem_nil, fun _ _ h => (by cases h),
    fun _ _ h => absurd rfl (blocked_of_entering h)⟩

/-- In every run in which no record of a suspended thread is overwritten, no wakeup is lost. -/
theorem noLostWakeup_of_run (run : MonitorRun RecordsKept w) : NoLostWakeup w := by
  suffices h : WakeInv w from h.noLostWakeup
  induction run with
  | start => exact .start
  | step env _ hstep he ih => exact ih.step hstep he

/-- A thread waits for a monitor that another one releases. -/
def contended : List (Env × Event) :=
  [({}, .run 1), ({}, .run 2), ({}, .step), ({}, .monitorAcquire 7 false 0), ({}, .suspend 50 {}),
    ({}, .step), ({}, .monitorAcquire 7 false 100), ({}, .step), ({}, .monitorexit 7)]

theorem noLostWakeup_contended : ∃ w, MonitorRun RecordsKept w ∧ (w.header 7).owner = none ∧
    w.Entering 2 7 ∧ NoLostWakeup w := by
  obtain ⟨w, hw⟩ : ∃ w, World.stepAll {} contended = some w := ⟨_, rfl⟩
  have hmeets : World.Meets RecordsKept {} contended := by decide
  have run := monitorRun_stepAll .start hmeets hw
  refine ⟨w, run, ?_, ?_, noLostWakeup_of_run run⟩
  · cases hw
    rfl
  · cases hw
    exact Or.inl rfl

/-- Two threads wait for different monitors, with their records in the same place. -/
def overlapping : List (Env × Event) :=
  [({}, .run 1), ({}, .run 2), ({}, .run 3), ({}, .step), ({}, .monitorAcquire 7 false 0),
    ({}, .monitorAcquire 8 false 0), ({}, .suspend 50 {}), ({}, .step),
    ({}, .monitorAcquire 7 false 100), ({}, .step), ({}, .monitorAcquire 8 false 100), ({}, .step),
    ({}, .monitorexit 7)]

/-- The one whose record has been overwritten is not woken. -/
theorem wakeup_lost : ∃ w, MonitorRun (fun _ _ _ => True) w ∧ (w.header 7).owner = none ∧
    w.Entering 2 7 ∧ ¬ NoLostWakeup w := by
  obtain ⟨w, hw⟩ : ∃ w, World.stepAll {} overlapping = some w := ⟨_, rfl⟩
  have hfacts : ((World.stepAll {} overlapping).all fun w => (w.header 7).owner = none ∧
      w.blocked 2 = some (.acquire 7) ∧ w.sched.roundRobin.all fun info =>
        isSleeping {} w.sched.mem 0 info || w.blocked info.thread ∈ [none, some (.acquire 8)]) =
      true := by decide
  rw [hw, Option.all_some, decide_eq_true_eq] at hfacts
  obtain ⟨hfree, hblocked, hasleep⟩ := hfacts
  refine ⟨w, monitorRun_stepAll .start meets_true hw, hfree, Or.inl hblocked, fun h => ?_⟩
  obtain ⟨info, hinfo, hent, hawake⟩ := h 7 hfree ⟨2, Or.inl hblocked⟩
  have hor := List.all_eq_true.mp hasleep info hinfo
  rw [hawake, Bool.false_or, decide_eq_true_eq, List.mem_cons, List.mem_singleton] at hor
  rcases hent with hent | ⟨n, a, hent⟩ <;> rcases hor with hor | hor <;> cases hent.symm.trans hor

end BJvm.Threads
