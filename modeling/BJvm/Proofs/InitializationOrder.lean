import BJvm.Proofs.InitializationRuns

/-!
# The order of class initialization and its failures

A `<clinit>` starts at most once, after the superclass is finished or from its initialization, and no
request overtakes another thread's initialization, unless a superclass could not be linked or memory
ran out.  A failure is recorded and reported only where no `<clinit>` throws and no request meets a
class that has failed.
-/

namespace BJvm.Initialization

variable {classes : Classes} {strict : Prop} {w : World}

/-- Memory does not run out, and a call for a superclass does not find that linking it has failed. -/
def SuperclassLinked (t : ThreadId) (env : Env) (w : World) : Event → Prop
  | .advance => env.callocFails = false ∧
      ∀ s n rest, (w.thread t).control = .initializeClass s :: .awaitSuper n :: rest →
        w.state s = .linkageError → s ∈ w.finished
  | _ => True

theorem SuperclassLinked.allowed {t : ThreadId} {env : Env} {e : Event}
    (h : SuperclassLinked t env w e) : Allowed False t env w e := by
  cases e with
  | advance =>
    obtain ⟨hcalloc, hsuper⟩ := h
    refine ⟨hcalloc, ?_, fun h => h.elim⟩
    unfold MeetsNoFailure
    split
    · rename_i n rest hcontrol
      refine ⟨fun hs k hk => ?_, fun h => h.elim⟩
      obtain ⟨post, rfl⟩ := List.head?_eq_some_iff.mp hk
      exact hsuper n k post hcontrol hs
    · exact fun h => h.elim
    · trivial
  | _ => trivial

/-- Classes 1 and 2 extend class 0, and class 3 extends class 1. -/
def sampleSuper (n : Nat) : Option Nat :=
  if n = 1 ∨ n = 2 then some 0 else if n = 3 then some 1 else none

theorem sampleSuper_lt {n s : Nat} (h : sampleSuper n = some s) : s < n := by
  unfold sampleSuper at h
  split_ifs at h with h₁ h₂
  · cases h
    omega
  · cases h
    omega

theorem no_interface_lt {n i : Nat} (h : i ∈ ([] : List Nat)) : i < n := absurd h List.not_mem_nil

/-- The sample hierarchy.  Class 1 does not verify. -/
def sampleClasses : Classes where
  superClass := sampleSuper
  interfaces := fun _ => []
  isInterface := fun _ => false
  verifies := fun n => n ≠ 1
  object := 0
  cloneable := 0
  serializable := 0
  super_lt := sampleSuper_lt
  interface_lt := no_interface_lt
  hasClinit := fun _ => true

/-- Steps without a condition. -/
theorem run_stepAll {w w' : World} {events : List (ThreadId × Env × Event)}
    (run : Run classes (fun _ _ _ _ => True) w) (h : stepAll classes w events = some w') :
    Run classes (fun _ _ _ _ => True) w' := by
  induction events generalizing w with
  | nil =>
    cases h
    exact run
  | cons event events ih =>
    obtain ⟨t, env, e⟩ := event
    unfold stepAll at h
    rw [Option.bind_eq_some_iff] at h
    obtain ⟨w₁, hstep, hrest⟩ := h
    exact ih (.step t env run hstep trivial) hrest

/-- Memory does not run out, no `<clinit>` throws, and no request finds a class in the error state, at
once or when another thread is done with it. -/
def NoFailureMet (t : ThreadId) (env : Env) (w : World) : Event → Prop
  | .advance => env.callocFails = false ∧
      (∀ n rest, (w.thread t).control = .initializeClass n :: rest → w.state n ≠ .linkageError) ∧
      (∀ n rest, (w.thread t).control = .awaitInitialized n :: rest →
        w.state n ≠ .linkageError) ∧
      ∀ n b rest, (w.thread t).control = .awaitClinit n b :: rest → (w.thread t).exception = none
  | _ => True

theorem NoFailureMet.allowed {t : ThreadId} {env : Env} {e : Event}
    (h : NoFailureMet t env w e) : Allowed True t env w e := by
  cases e with
  | advance =>
    obtain ⟨hcalloc, hrequest, hwait, hclinit⟩ := h
    refine ⟨hcalloc, ?_, fun _ => hclinit⟩
    unfold MeetsNoFailure
    split
    · rename_i n rest hcontrol
      exact ⟨fun hs => absurd hs (hrequest n rest hcontrol), fun _ => hrequest n rest hcontrol⟩
    · rename_i n rest hcontrol
      exact fun _ => hwait n rest hcontrol
    · trivial
  | _ => trivial

end BJvm.Initialization
