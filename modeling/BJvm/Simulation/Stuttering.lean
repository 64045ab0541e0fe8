import Mathlib.Algebra.Order.Ring.Nat
import Mathlib.Logic.Relation

/-!
# Simulations that may stutter

Two transition relations, and a relation between their states that a step of the second keeps.  The
first answers with a step of its own; before that it may take other steps, each of which lowers a
rank.
-/

namespace BJvm.Simulation

open Relation

variable {σ τ : Type*} {r : σ → σ → Prop} {s : τ → τ → Prop} {R : σ → τ → Prop} {rank : σ → ℕ}
  {c d : σ} {a a' : τ}

/-- The steps of `s` are answered by steps of `r`. -/
def Simulates (r : σ → σ → Prop) (s : τ → τ → Prop) (R : σ → τ → Prop) (rank : σ → ℕ) : Prop :=
  ∀ ⦃c a a'⦄, R c a → s a a' → ∃ c', r c c' ∧ (R c' a' ∨ R c' a ∧ rank c' < rank c)

/-- From one state there is one step at most. -/
def Deterministic (r : σ → σ → Prop) : Prop := ∀ ⦃c d d'⦄, r c d → r c d' → d = d'

/-- No step leads on. -/
def Final (r : σ → σ → Prop) (c : σ) : Prop := ∀ d, ¬ r c d

theorem deterministic_of_fun (f : σ → Option σ) : Deterministic fun c d => f c = some d :=
  fun _ _ _ h h' => Option.some.inj (h.symm.trans h')

namespace Simulates

/-- The steps that a step is answered by. -/
theorem answer (h : Simulates r s R rank) (hR : R c a) (ha : s a a') :
    ∃ c', TransGen r c c' ∧ R c' a' := by
  induction hn : rank c using Nat.strong_induction_on generalizing c with
  | _ n ih =>
    obtain ⟨c₁, hc, hR' | ⟨hR', hlt⟩⟩ := h hR ha
    · exact ⟨c₁, .single hc, hR'⟩
    · obtain ⟨c', hc', hR''⟩ := ih _ (hn ▸ hlt) hR' rfl
      exact ⟨c', .head hc hc', hR''⟩

/-- A run is answered by a run. -/
theorem run (h : Simulates r s R rank) (hR : R c a) (ha : ReflTransGen s a a') :
    ∃ c', ReflTransGen r c c' ∧ R c' a' := by
  induction ha with
  | refl => exact ⟨c, .refl, hR⟩
  | tail _ hstep ih =>
    obtain ⟨c₁, hc₁, hR₁⟩ := ih
    obtain ⟨c₂, hc₂, hR₂⟩ := h.answer hR₁ hstep
    exact ⟨c₂, hc₁.trans hc₂.to_reflTransGen, hR₂⟩

/-- A run of `r` stands for a run of `s`, as long as `s` has a step where `r` has one. -/
theorem reflects (h : Simulates r s R rank) (hdet : Deterministic r)
    (hprogress : ∀ ⦃c a⦄, R c a → (∃ a', s a a') ∨ Final r c) (hR : R c a)
    (hc : ReflTransGen r c d) : ∃ a', ReflTransGen s a a' ∧ R d a' := by
  induction hc using ReflTransGen.head_induction_on generalizing a with
  | refl => exact ⟨a, .refl, hR⟩
  | @head c c₁ hstep _ ih =>
    obtain ⟨a₁, ha⟩ | hfinal := hprogress hR
    · obtain ⟨c', hc', hR' | ⟨hR', -⟩⟩ := h hR ha
      · obtain ⟨a', ha', hR''⟩ := ih (hdet hc' hstep ▸ hR')
        exact ⟨a', .head ha ha', hR''⟩
      · exact ih (hdet hc' hstep ▸ hR')
    · exact absurd hstep (hfinal c₁)

end Simulates

end BJvm.Simulation
