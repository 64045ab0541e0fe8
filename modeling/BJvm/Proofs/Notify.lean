import Mathlib.Logic.Function.Iterate
import BJvm.Threads.RoundRobin

/-!
# Notifying threads

A notified thread keeps its record until it runs again, and each `notify` marks the first record of
the monitor, marked or not.  So several calls in a row wake one thread.
-/

namespace BJvm.Threads

open Function (update)

variable {infos : List ThreadInfo} {info i : ThreadInfo} {mem : Memory} {kind : WakeupKind}
  {monitor : Object} {n : Nat} {a : Addr}

/-! ### Marking a record -/

theorem mark_of_some (h : info.wakeupInfo = some a) :
    info.mark mem = update mem a { mem a with ready := true } := by
  unfold ThreadInfo.mark
  rw [h]

theorem mark_of_ne (h : info.wakeupInfo ≠ some a) : info.mark mem a = mem a := by
  unfold ThreadInfo.mark
  cases hb : info.wakeupInfo with
  | none => rfl
  | some b =>
    refine Function.update_of_ne ?_ ..
    rintro rfl
    exact h hb

theorem mark_kind : (info.mark mem a).kind = (mem a).kind ∧
    (info.mark mem a).monitor = (mem a).monitor := by
  by_cases h : info.wakeupInfo = some a
  · rw [mark_of_some h, Function.update_self]
    exact ⟨rfl, rfl⟩
  · rw [mark_of_ne h]
    exact ⟨rfl, rfl⟩

theorem waits_mark : i.waits (info.mark mem) kind monitor = i.waits mem kind monitor := by
  unfold ThreadInfo.waits
  split
  · rfl
  · rw [mark_kind.1, mark_kind.2]

theorem mark_of_marked (h : info.marked mem = true) : info.mark mem = mem := by
  unfold ThreadInfo.mark ThreadInfo.marked at *
  split
  · rfl
  · rename_i b hb
    rw [hb] at h
    rw [← h]
    exact Function.update_eq_self b mem

theorem waits_congr (h : i.wakeupInfo = info.wakeupInfo) :
    i.waits mem kind monitor = info.waits mem kind monitor := by
  unfold ThreadInfo.waits
  rw [h]

theorem marked_mark_iff (h : i.waits mem kind monitor = true) :
    i.marked (info.mark mem) = true ↔ i.marked mem = true ∨ i.wakeupInfo = info.wakeupInfo := by
  unfold ThreadInfo.waits at h
  split at h
  · cases h
  · rename_i b hb
    unfold ThreadInfo.marked
    rw [hb]
    simp only []
    by_cases heq : info.wakeupInfo = some b
    · rw [mark_of_some heq, heq]
      simp
    · rw [mark_of_ne heq]
      simp [Ne.symm heq]

/-! ### The first waiting thread -/

theorem markFirst_eq : markFirst kind monitor infos mem =
    (infos.find? fun info => info.waits mem kind monitor).elim mem fun info => info.mark mem := by
  induction infos with
  | nil => rfl
  | cons info infos ih =>
    unfold markFirst
    rw [List.find?_cons]
    by_cases h : info.waits mem kind monitor = true
    · rw [if_pos h, h]
      rfl
    · rw [if_neg h, ih]
      simp [h]

theorem waits_of_find? (h : (infos.find? fun i => i.waits mem kind monitor) = some info) :
    info.waits mem kind monitor = true := by
  simpa using List.find?_some h

/-- The same thread is chosen again. -/
theorem markFirst_markFirst : markFirst kind monitor infos (markFirst kind monitor infos mem) =
    markFirst kind monitor infos mem := by
  have hfind : ∀ info : ThreadInfo, (infos.find? fun i => i.waits (info.mark mem) kind monitor) =
      infos.find? fun i => i.waits mem kind monitor := fun info => by
    simp only [waits_mark]
  nth_rewrite 3 [markFirst_eq]
  nth_rewrite 2 [markFirst_eq]
  cases h : infos.find? fun info => info.waits mem kind monitor with
  | none =>
    rw [Option.elim_none, markFirst_eq, h]
    rfl
  | some info =>
    have hw : info.waits mem kind monitor = true := waits_of_find? h
    rw [Option.elim_some, markFirst_eq, hfind, h, Option.elim_some]
    exact mark_of_marked ((marked_mark_iff hw).mpr (Or.inr rfl))

theorem iterate_notifyOne (h : n ≠ 0) :
    (monitorNotifyOne infos monitor)^[n] mem = monitorNotifyOne infos monitor mem := by
  obtain ⟨n, rfl⟩ := Nat.exists_eq_succ_of_ne_zero h
  induction n with
  | zero => rfl
  | succ n ih =>
    rw [Function.iterate_succ_apply', ih (Nat.succ_ne_zero n)]
    exact markFirst_markFirst

/-! ### All waiting threads -/

theorem marked_notifyAll_of_marked (h : i.marked mem = true) :
    i.marked (monitorNotifyAll infos monitor mem) = true := by
  unfold monitorNotifyAll
  induction infos generalizing mem with
  | nil => exact h
  | cons info infos ih =>
    rw [List.foldl_cons]
    refine ih ?_
    split_ifs
    · unfold ThreadInfo.marked at h ⊢
      split at h
      · cases h
      · rename_i b hb
        by_cases heq : info.wakeupInfo = some b
        · rw [mark_of_some heq, Function.update_self]
        · rw [mark_of_ne heq, h]
    · exact h

theorem marked_notifyAll (hi : i ∈ infos) (h : i.waits mem .monitorWait monitor = true) :
    i.marked (monitorNotifyAll infos monitor mem) = true := by
  unfold monitorNotifyAll
  induction infos generalizing mem with
  | nil => exact absurd hi List.not_mem_nil
  | cons info infos ih =>
    rw [List.foldl_cons]
    rcases List.mem_cons.mp hi with rfl | hi
    · rw [if_pos h]
      exact marked_notifyAll_of_marked ((marked_mark_iff h).mpr (Or.inr rfl))
    · refine ih hi ?_
      split_ifs
      · rwa [waits_mark]
      · exact h

/-- The records of threads that do not wait on the monitor are left alone. -/
theorem notifyAll_of_not_waits (ha : i.wakeupInfo = some a)
    (h : i.waits mem .monitorWait monitor = false) : monitorNotifyAll infos monitor mem a = mem a := by
  unfold monitorNotifyAll
  induction infos generalizing mem with
  | nil => rfl
  | cons info infos ih =>
    rw [List.foldl_cons]
    split_ifs with hw
    · have hne : info.wakeupInfo ≠ some a := fun heq => by
        rw [waits_congr (ha.trans heq.symm), hw] at h
        cases h
      rw [ih (by rwa [waits_mark]), mark_of_ne hne]
    · exact ih h

theorem notifyOne_of_not_waits (ha : i.wakeupInfo = some a)
    (h : i.waits mem .monitorWait monitor = false) : monitorNotifyOne infos monitor mem a = mem a := by
  unfold monitorNotifyOne
  rw [markFirst_eq]
  cases hf : infos.find? fun info => info.waits mem .monitorWait monitor with
  | none => rfl
  | some info =>
    have hw : info.waits mem .monitorWait monitor = true := waits_of_find? hf
    refine mark_of_ne fun heq => ?_
    rw [waits_congr (ha.trans heq.symm), hw] at h
    cases h

/-! ### The calls together -/

/-- The threads that wait on the monitor and have not been notified. -/
def waiters (infos : List ThreadInfo) (mem : Memory) (monitor : Object) : List ThreadInfo :=
  infos.filter fun info => info.waits mem .monitorWait monitor && !info.marked mem

/-- `n` calls of `notify` wake as many threads, or all that wait, `notifyAll` wakes them all, and
neither touches the other threads. -/
structure NotifiesWaiters (infos : List ThreadInfo) (mem : Memory) (monitor : Object) (n : Nat) :
    Prop where
  one : ((waiters infos mem monitor).filter fun info =>
    info.marked ((monitorNotifyOne infos monitor)^[n] mem)).length =
      min n (waiters infos mem monitor).length
  all : ∀ i ∈ infos, i.waits mem .monitorWait monitor = true →
    i.marked (monitorNotifyAll infos monitor mem) = true
  others : ∀ i ∈ infos, i.waits mem .monitorWait monitor = false → ∀ a, i.wakeupInfo = some a →
    (monitorNotifyOne infos monitor)^[n] mem a = mem a ∧
      monitorNotifyAll infos monitor mem a = mem a

/-- Each waiting thread has a record of its own. -/
def OwnRecords (infos : List ThreadInfo) (mem : Memory) (monitor : Object) : Prop :=
  ((infos.filter fun info => info.waits mem .monitorWait monitor).map
    ThreadInfo.wakeupInfo).Nodup

/-- There is nobody to wake, or one call and the first waiting thread is not notified yet, or one
thread and it is the first. -/
def OneToNotify (infos : List ThreadInfo) (mem : Memory) (monitor : Object) (n : Nat) : Prop :=
  n = 0 ∨ waiters infos mem monitor = [] ∨
    ((infos.find? fun info => info.waits mem .monitorWait monitor).any (!·.marked mem) = true ∧
      (n = 1 ∨ (waiters infos mem monitor).length = 1))

/-- The threads that one call wakes: the first one, when it is not notified yet. -/
theorem length_woken (h : OwnRecords infos mem monitor) :
    ((waiters infos mem monitor).filter fun info =>
      info.marked (monitorNotifyOne infos monitor mem)).length =
    if (infos.find? fun info => info.waits mem .monitorWait monitor).any (!·.marked mem) = true
      then 1 else 0 := by
  unfold monitorNotifyOne
  rw [markFirst_eq]
  cases hf : infos.find? fun info => info.waits mem .monitorWait monitor with
  | none =>
    rw [Option.elim_none]
    simp +contextual [waiters]
  | some first =>
    have hw : first.waits mem .monitorWait monitor = true := waits_of_find? hf
    have hmem : first ∈ infos := List.mem_of_find?_eq_some hf
    rw [Option.elim_some, Option.any_some]
    have hfilter : ((waiters infos mem monitor).filter fun info => info.marked (first.mark mem)) =
        (waiters infos mem monitor).filter fun info => info.wakeupInfo = first.wakeupInfo := by
      refine List.filter_congr fun i hi => ?_
      obtain ⟨-, hi⟩ := List.mem_filter.mp hi
      simp only [Bool.and_eq_true, Bool.not_eq_true'] at hi
      rw [Bool.eq_iff_iff, marked_mark_iff hi.1, hi.2]
      simp
    rw [hfilter]
    have hle : ((waiters infos mem monitor).filter fun info =>
        info.wakeupInfo = first.wakeupInfo).length ≤ 1 := by
      have hsub : (waiters infos mem monitor).Sublist
          (infos.filter fun info => info.waits mem .monitorWait monitor) := by
        unfold waiters
        exact List.monotone_filter_right infos fun i hi => by
          simp only [Bool.and_eq_true] at hi
          exact hi.1
      have hcount := List.nodup_iff_count_le_one.mp ((hsub.map _).nodup h) first.wakeupInfo
      rw [List.count, List.countP_map, List.countP_eq_length_filter] at hcount
      refine le_of_eq_of_le (congrArg List.length (List.filter_congr fun i _ => ?_)) hcount
      simp [beq_eq_decide]
    by_cases hmark : first.marked mem = true
    · rw [hmark, if_neg (by simp), List.length_eq_zero_iff, List.filter_eq_nil_iff]
      intro i hi heq
      obtain ⟨-, hi⟩ := List.mem_filter.mp hi
      simp only [Bool.and_eq_true, Bool.not_eq_true'] at hi
      have hmarked : i.marked mem = first.marked mem := by
        unfold ThreadInfo.marked
        rw [of_decide_eq_true heq]
      rw [hmarked, hmark] at hi
      cases hi.2
    · rw [if_pos (by simpa using hmark)]
      refine Nat.le_antisymm hle (List.length_pos_of_mem (a := first) ?_)
      rw [List.mem_filter, waiters, List.mem_filter]
      exact ⟨⟨hmem, by simp [hw, hmark]⟩, by simp⟩

/-- The calls wake as many threads as they should exactly when there is one to wake. -/
theorem notifiesWaiters_iff (h : OwnRecords infos mem monitor) :
    NotifiesWaiters infos mem monitor n ↔ OneToNotify infos mem monitor n := by
  have hall : ∀ i ∈ infos, i.waits mem .monitorWait monitor = true →
      i.marked (monitorNotifyAll infos monitor mem) = true := fun i hi => marked_notifyAll hi
  have hothers : ∀ i ∈ infos, i.waits mem .monitorWait monitor = false → ∀ a,
      i.wakeupInfo = some a → (monitorNotifyOne infos monitor)^[n] mem a = mem a ∧
        monitorNotifyAll infos monitor mem a = mem a := by
    intro i _ hi a ha
    refine ⟨?_, notifyAll_of_not_waits ha hi⟩
    rcases eq_or_ne n 0 with rfl | hn
    · rfl
    · rw [iterate_notifyOne hn, notifyOne_of_not_waits ha hi]
  have hone : ((waiters infos mem monitor).filter fun info =>
      info.marked ((monitorNotifyOne infos monitor)^[n] mem)).length =
        min n (waiters infos mem monitor).length ↔ OneToNotify infos mem monitor n := by
    unfold OneToNotify
    rcases eq_or_ne n 0 with rfl | hn
    · simp +contextual [waiters]
    rw [iterate_notifyOne hn, length_woken h, ← List.length_eq_zero_iff]
    have hpos : ∀ first, (infos.find? fun info => info.waits mem .monitorWait monitor) =
        some first → first.marked mem = false → 0 < (waiters infos mem monitor).length := by
      intro first hf hm
      refine List.length_pos_of_mem (a := first) (List.mem_filter.mpr ?_)
      have hw : first.waits mem .monitorWait monitor = true := waits_of_find? hf
      exact ⟨List.mem_of_find?_eq_some hf, by simp [hw, hm]⟩
    split_ifs with hany
    · rw [Option.any_eq_true] at hany
      obtain ⟨first, hf, hm⟩ := hany
      have := hpos first hf (by simpa using hm)
      simp only [hf, Option.any_some, hm, true_and]
      omega
    · simp only [hany, Bool.false_eq_true, false_and, or_false]
      omega
  exact ⟨fun h => hone.mp h.one, fun h => ⟨hone.mpr h, hall, hothers⟩⟩

/-- Two threads that wait on one monitor. -/
def twoWaiting : List ThreadInfo := [{ thread := 1, wakeupInfo := some 10 },
  { thread := 2, wakeupInfo := some 20 }]

def twoWaitingMem : Memory := fun _ => { kind := .monitorWait, monitor := 7 }

/-- One call wakes one of them. -/
theorem notifiesWaiters_once : NotifiesWaiters twoWaiting twoWaitingMem 7 1 :=
  (notifiesWaiters_iff (by unfold OwnRecords; decide)).mpr
    (Or.inr (Or.inr ⟨by decide, Or.inl rfl⟩))

/-- Two calls wake the same one. -/
theorem second_notify_lost : OwnRecords twoWaiting twoWaitingMem 7 ∧
    (waiters twoWaiting twoWaitingMem 7).length = 2 ∧
    ¬ NotifiesWaiters twoWaiting twoWaitingMem 7 2 := by
  refine ⟨by unfold OwnRecords; decide, by decide, fun h => ?_⟩
  have hone := h.one
  rw [iterate_notifyOne (by decide)] at hone
  revert hone
  decide

end BJvm.Threads
