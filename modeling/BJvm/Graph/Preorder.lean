import Mathlib.Data.List.Basic
import Mathlib.Logic.Relation

/-!
# Listing what lies below, depth first

In a graph whose paths are bounded, the children of a node in order, each with what lies below it.
-/

namespace Graph

open Relation

variable {α : Type} {r r' : α → α → Prop} {children : α → List α} {n m : ℕ} {a b : α}

/-- Fewer than `n` edges lie on every path from the node. -/
inductive Within (r : α → α → Prop) : ℕ → α → Prop
  | mk {n : ℕ} {a : α} : (∀ b, r a b → Within r n b) → Within r (n + 1) a

namespace Within

theorem child : Within r (n + 1) a → r a b → Within r n b
  | mk h, hab => h b hab

theorem mono (h : Within r n a) (hle : n ≤ m) : Within r m a := by
  induction h generalizing m with
  | mk _ ih =>
    obtain ⟨m, rfl⟩ := Nat.exists_eq_add_of_le' (Nat.zero_lt_of_lt hle)
    exact mk fun b hb => ih b hb (Nat.le_of_succ_le_succ hle)

theorem of_imp (himp : ∀ a b, r' a b → r a b) (h : Within r n a) : Within r' n a := by
  induction h with
  | mk _ ih => exact mk fun b hb => ih b (himp _ b hb)

theorem pos (h : Within r n a) : 0 < n := by
  cases h
  exact Nat.succ_pos _

theorem irrefl (h : Within r n a) : ¬ TransGen r a a := by
  induction h with
  | mk _ ih =>
    intro hcycle
    obtain ⟨b, hab, hba⟩ := TransGen.head'_iff.mp hcycle
    exact ih b hab (TransGen.tail' hba hab)

end Within

/-- The children in order, each with what lies below it. -/
def preorder (children : α → List α) : ℕ → α → List α
  | 0, _ => []
  | fuel + 1, a => (children a).flatMap fun b => b :: preorder children fuel b

theorem mem_preorder : ∀ {fuel n : ℕ} {a : α}, Within (fun a b => b ∈ children a) n a → n ≤ fuel →
    (b ∈ preorder children fuel a ↔ TransGen (fun a b => b ∈ children a) a b)
  | 0, _, _, h, hle => absurd (Nat.lt_of_lt_of_le h.pos hle) (Nat.lt_irrefl 0)
  | fuel + 1, _, a, .mk h, hle => by
    have hrec : ∀ c ∈ children a, (b ∈ preorder children fuel c ↔ _) := fun c hc =>
      mem_preorder (h c hc) (Nat.le_of_succ_le_succ hle)
    simp only [preorder, List.mem_flatMap, List.mem_cons]
    constructor
    · rintro ⟨c, hc, rfl | hb⟩
      · exact .single hc
      · exact .head hc ((hrec c hc).mp hb)
    · intro hb
      obtain ⟨c, hc, hcb⟩ := TransGen.head'_iff.mp hb
      rcases reflTransGen_iff_eq_or_transGen.mp hcb with rfl | hcb
      · exact ⟨_, hc, .inl rfl⟩
      · exact ⟨c, hc, .inr ((hrec c hc).mpr hcb)⟩

/-- A depth-first search for the first node with an answer, below `a`. -/
theorem findSome?_preorder {β : Type} (f : α → Option β) (fuel : ℕ) (a : α) :
    (preorder children (fuel + 1) a).findSome? f =
      (children a).findSome? fun b => (f b).or ((preorder children fuel b).findSome? f) := by
  rw [preorder]
  induction children a with
  | nil => rfl
  | cons b l ih =>
    rw [List.flatMap_cons, List.findSome?_append, ih, List.findSome?_cons, List.findSome?_cons]
    rcases f b with _ | x
    · rw [Option.none_or]
      rcases (preorder children fuel b).findSome? f with _ | x <;> rfl
    · rfl

end Graph
