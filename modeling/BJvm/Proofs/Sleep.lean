import BJvm.Threads.Sleep
import Mathlib.Tactic.Common

/-!
# Sleeping between steps

What puts an end to a sleep by time alone is a deadline that has passed (`deadline_of_wakes`), and
the loop finds no deadline greater than the one of any thread with a call (`minWakeup_le`).
-/

namespace BJvm.Threads

variable {m : Machine} {mem : Memory} {time time' : Nat} {info : ThreadInfo}
  {roundRobin : List ThreadInfo}

/-- The time that a thread is to wake up at; zero if there is none. -/
def ThreadInfo.wakeupTime (info : ThreadInfo) (mem : Memory) : Nat :=
  info.wakeupInfo.elim 0 fun a => (mem a).wakeupUs

theorem deadline_of_wakes (h : isSleeping m mem time info = true)
    (h' : isSleeping m mem time' info = false) :
    info.wakeupTime mem ≠ 0 ∧ info.wakeupTime mem < time' := by
  unfold isSleeping at h h'
  rw [ThreadInfo.wakeupTime]
  rcases hinfo : info.wakeupInfo with _ | a
  · rw [hinfo] at h
    cases h
  · simp only [hinfo, Option.elim_some] at h h' ⊢
    split_ifs at h h' with hpending hkind
    · rw [h] at h'
      cases h'
    · simp only [decide_eq_true_eq, decide_eq_false_iff_not, not_and, not_or] at h h'
      have := h' h.1
      omega

theorem minWakeup_le : ∀ {roundRobin : List ThreadInfo} {min min' : Nat},
    minWakeup m mem time roundRobin min = some min' → min' ≤ min ∧
      ∀ info ∈ roundRobin, info.callQueue ≠ [] → isSleeping m mem time info = true ∧
        (info.wakeupTime mem ≠ 0 → min' ≤ info.wakeupTime mem)
  | [], min, min', h => by
    rw [minWakeup, Option.some.injEq] at h
    exact ⟨h.ge, fun info hinfo => absurd hinfo List.not_mem_nil⟩
  | info :: infos, min, min', h => by
    rw [minWakeup] at h
    split_ifs at h with hqueue hsleeping
    · obtain ⟨hle, hall⟩ := minWakeup_le h
      refine ⟨hle, List.forall_mem_cons.2 ⟨fun hne => absurd hqueue hne, hall⟩⟩
    · obtain ⟨hle, hall⟩ := minWakeup_le h
      change min' ≤ if info.wakeupTime mem ≠ 0 ∧ info.wakeupTime mem < min then
        info.wakeupTime mem else min at hle
      refine ⟨?_, List.forall_mem_cons.2 ⟨fun _ => ⟨hsleeping, fun hne => ?_⟩, hall⟩⟩
      · split_ifs at hle <;> omega
      · split_ifs at hle <;> omega

/-- No thread is runnable now, and each that will be has a deadline not before `min`. -/
theorem sleepsRight_of_min {min : Nat}
    (h : minWakeup m mem time roundRobin uint64Max = some min) :
    SleepsRight m mem time roundRobin (min - time) := by
  obtain ⟨hle, hall⟩ := minWakeup_le h
  have hdeadline : ∀ info ∈ roundRobin, ∀ t, info.Runnable m mem t → min < t := by
    rintro info hinfo t ⟨hqueue, hawake⟩
    obtain ⟨hsleeping, hmin⟩ := hall info hinfo hqueue
    obtain ⟨hne, hlt⟩ := deadline_of_wakes hsleeping hawake
    exact (hmin hne).trans_lt hlt
  refine ⟨fun info hinfo t _ hrun => ?_, ?_, fun hunbounded info hinfo t ht ht' hrun => ?_⟩
  · have := hdeadline info hinfo t hrun
    omega
  · rintro ⟨info, hinfo, hrun⟩
    have := hdeadline info hinfo time hrun
    omega
  · have := hdeadline info hinfo t hrun
    omega

/-- The time to sleep is right, whatever the threads wait for. -/
theorem rrSchedulerMaySleepUs_right (m : Machine) (mem : Memory) (time : Nat)
    (roundRobin : List ThreadInfo) :
    SleepsRight m mem time roundRobin (rrSchedulerMaySleepUs m mem time roundRobin) := by
  rw [rrSchedulerMaySleepUs]
  rcases hmin : minWakeup m mem time roundRobin uint64Max with _ | min
  · refine ⟨fun _ _ _ _ _ => Nat.zero_le _, fun _ => rfl, fun hunbounded info hinfo t ht ht' => ?_⟩
    dsimp only at hunbounded
    omega
  · dsimp only
    have hsub : (if time < min then min - time else 0) = min - time := by
      split_ifs <;> omega
    rw [hsub]
    exact sleepsRight_of_min hmin

end BJvm.Threads
