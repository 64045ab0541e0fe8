import BJvm.Analysis.Dominators
import BJvm.Graph.Semidominator
import Mathlib.Data.Finset.Card

/-!
# `get_dfs_tree` numbers the blocks depth first

`Explored` is what holds in the middle of the call for block `b`, which was entered when the
preorder clock was `K`: the blocks numbered from `K` on hang below `b` in the tree, consecutively,
and what they lead to is numbered.  The call keeps everything older (`Keeps`), so the results of
the inner calls add up (`Explored.call`).
-/

namespace BJvm

open Relation

variable {next : Nat → List Nat} {n K b c x y : Nat} {t t' : DfsTree} {done : List Nat}

namespace DfsTree

/-- The numbers given out so far and the blocks that have them correspond. -/
structure WF (n : Nat) (t : DfsTree) : Prop where
  range : ∀ {b p}, t.blockToPre b = some p → p < t.preorderClock ∧ t.preToBlock p = b ∧ b < n
  onto : ∀ {p}, p < t.preorderClock → t.blockToPre (t.preToBlock p) = some p

/-- Numbered blocks keep their number and their parent. -/
structure Keeps (t t' : DfsTree) : Prop where
  number : ∀ {x p}, t.blockToPre x = some p → t'.blockToPre x = some p
  parent : ∀ {x p}, t.blockToPre x = some p → t'.parent x = t.parent x
  clock : t.preorderClock ≤ t'.preorderClock

/-- `a` is the parent of `x`, which was numbered after `K`. -/
def TreeEdge (t : DfsTree) (K a x : Nat) : Prop :=
  (∃ p, t.blockToPre x = some p ∧ K < p) ∧ t.parent x = a

theorem Keeps.refl (t : DfsTree) : Keeps t t := ⟨id, fun _ => rfl, le_rfl⟩

theorem Keeps.trans {t'' : DfsTree} (h : Keeps t t') (h' : Keeps t' t'') : Keeps t t'' :=
  ⟨fun hx => h'.number (h.number hx), fun hx => (h'.parent (h.number hx)).trans (h.parent hx),
    h.clock.trans h'.clock⟩

theorem WF.inj (h : WF n t) {p : Nat} (hx : t.blockToPre x = some p)
    (hy : t.blockToPre y = some p) : x = y :=
  (h.range hx).2.1.symm.trans (h.range hy).2.1

theorem WF.clock_le (h : WF n t) : t.preorderClock ≤ n := by
  have hinj : Set.InjOn t.preToBlock (Finset.range t.preorderClock : Set Nat) := by
    intro p hp q hq hpq
    simp only [Finset.coe_range, Set.mem_Iio] at hp hq
    have h1 := h.onto hp
    rw [hpq, h.onto hq, Option.some.injEq] at h1
    exact h1.symm
  have hmaps : Set.MapsTo t.preToBlock (Finset.range t.preorderClock : Set Nat)
      (Finset.range n : Set Nat) := by
    intro p hp
    simp only [Finset.coe_range, Set.mem_Iio] at hp ⊢
    exact (h.range (h.onto hp)).2.2
  simpa using Finset.card_le_card_of_injOn _ hmaps hinj

/-- A block with an old number had it before. -/
theorem Keeps.old (hk : Keeps t t') (h : WF n t) (h' : WF n t') {p : Nat}
    (hx : t'.blockToPre x = some p) (hp : p < t.preorderClock) : t.blockToPre x = some p := by
  have hold := h.onto hp
  rwa [h'.inj (hk.number hold) hx] at hold

theorem TreeEdge.mono {K' a : Nat} (hk : Keeps t t') (hK : K' ≤ K) (h : t.TreeEdge K a x) :
    t'.TreeEdge K' a x := by
  obtain ⟨⟨p, hp, hlt⟩, rfl⟩ := h
  exact ⟨⟨p, hk.number hp, by omega⟩, hk.parent hp⟩

theorem anc_mono {K' a : Nat} (hk : Keeps t t') (hK : K' ≤ K)
    (h : ReflTransGen (t.TreeEdge K) a x) : ReflTransGen (t'.TreeEdge K') a x :=
  Graph.reach_mono h fun _ _ he => he.mono hk hK

/-! ### One block -/

@[simp] theorem enter_clock : (t.enter b).preorderClock = t.preorderClock + 1 := rfl

@[simp] theorem enter_parent : (t.enter b).parent = t.parent := rfl

@[simp] theorem enter_self : (t.enter b).blockToPre b = some t.preorderClock := by
  simp [enter]

theorem enter_of_ne (h : x ≠ b) : (t.enter b).blockToPre x = t.blockToPre x := by
  simp [enter, h]

@[simp] theorem leave_blockToPre : (t.leave b).blockToPre = t.blockToPre := rfl

@[simp] theorem leave_parent : (t.leave b).parent = t.parent := rfl

@[simp] theorem leave_clock : (t.leave b).preorderClock = t.preorderClock := rfl

theorem WF.enter (h : WF n t) (hb : t.blockToPre b = none) (hbn : b < n) : WF n (t.enter b) := by
  constructor
  · intro x p hx
    by_cases hxb : x = b
    · subst hxb
      simp only [enter_self, Option.some.injEq] at hx
      subst hx
      simp [DfsTree.enter, hbn]
    · rw [enter_of_ne hxb] at hx
      obtain ⟨h1, h2, h3⟩ := h.range hx
      refine ⟨by simp; omega, ?_, h3⟩
      simp [DfsTree.enter, Function.update_of_ne (by omega : p ≠ t.preorderClock), h2]
  · intro p hp
    simp only [enter_clock] at hp
    by_cases hpc : p = t.preorderClock
    · subst hpc
      simp [DfsTree.enter]
    · have hold := h.onto (p := p) (by omega)
      have hne : t.preToBlock p ≠ b := by
        rintro heq
        rw [heq, hb] at hold
        simp at hold
      simp [DfsTree.enter, Function.update_of_ne hpc, Function.update_of_ne hne, hold]

theorem keeps_enter (hb : t.blockToPre b = none) : Keeps t (t.enter b) := by
  refine ⟨fun {x p} hx => ?_, fun _ => rfl, by simp⟩
  rw [enter_of_ne, hx]
  rintro rfl
  rw [hb] at hx
  simp at hx

theorem keeps_setParent (hc : t.blockToPre c = none) : Keeps t (t.setParent c b) := by
  refine ⟨id, fun {x p} hx => ?_, le_rfl⟩
  have hxc : x ≠ c := by
    rintro rfl
    rw [hc] at hx
    simp at hx
  simp [setParent, hxc]

end DfsTree

open DfsTree

/-- What holds of the blocks numbered from `K` on while `b` is explored, when the successors
`done` have been looked at. -/
structure Explored (next : Nat → List Nat) (n K b : Nat) (done : List Nat) (t : DfsTree) :
    Prop where
  wf : WF n t
  number : t.blockToPre b = some K
  parent : ∀ {x p}, t.blockToPre x = some p → K < p →
    ∃ q, t.blockToPre (t.parent x) = some q ∧ K ≤ q ∧ q < p ∧ x ∈ next (t.parent x)
  anc : ∀ {x p}, t.blockToPre x = some p → K ≤ p → ReflTransGen (t.TreeEdge K) b x
  edges : ∀ {x p y}, t.blockToPre x = some p → K < p → y ∈ next x →
    ∃ q, t.blockToPre y = some q ∧ (p < q → ReflTransGen (t.TreeEdge K) x y)
  interval : ∀ {a x e pa px pe}, ReflTransGen (t.TreeEdge K) a e → t.blockToPre a = some pa →
    K ≤ pa → t.blockToPre x = some px → t.blockToPre e = some pe → pa ≤ px → px ≤ pe →
    ReflTransGen (t.TreeEdge K) a x
  done : ∀ {y}, y ∈ done → ∃ q, t.blockToPre y = some q

namespace Explored

theorem enter (h : WF n t) (hb : t.blockToPre b = none) (hbn : b < n) :
    Explored next n t.preorderClock b [] (t.enter b) := by
  have hwf := h.enter hb hbn
  have hnew : ∀ {x p}, (t.enter b).blockToPre x = some p → t.preorderClock ≤ p → x = b ∧
      p = t.preorderClock := by
    intro x p hx hp
    have h1 := (hwf.range hx).1
    simp only [enter_clock] at h1
    obtain rfl : p = t.preorderClock := by omega
    exact ⟨hwf.inj hx enter_self, rfl⟩
  refine ⟨hwf, enter_self, fun hx hp => ?_, fun hx hp => ?_, fun hx hp => ?_, ?_, by simp⟩
  · exact absurd (hnew hx hp.le).2 (by omega)
  · rw [(hnew hx hp).1]
  · exact absurd (hnew hx hp.le).2 (by omega)
  · intro a x e pa px pe hae ha hpa hx he h1 h2
    rw [(hnew ha hpa).1, (hnew hx (hpa.trans h1)).1]

/-- The successor `c`, not yet numbered, is explored by an inner call. -/
theorem call (h : Explored next n K b done t) (hc : t.blockToPre c = none) (hcb : c ∈ next b)
    (h' : Explored next n t.preorderClock c (next c) t') (hk' : Keeps (t.setParent c b) t')
    (hpar : t'.parent c = b) : Explored next n K b (done ++ [c]) t' := by
  have hk : Keeps t t' := (keeps_setParent hc).trans hk'
  have hK : K < t.preorderClock := (h.wf.range h.number).1
  have hold : ∀ {x p}, t'.blockToPre x = some p → p < t.preorderClock →
      t.blockToPre x = some p := fun hx hp => hk.old h.wf h'.wf hx hp
  have hcK : t'.blockToPre c = some t.preorderClock := h'.number
  have hbc : t'.TreeEdge K b c := ⟨⟨_, hcK, hK⟩, hpar⟩
  have hanc : ∀ {x p}, t'.blockToPre x = some p → K ≤ p →
      ReflTransGen (t'.TreeEdge K) b x := by
    intro x p hx hp
    rcases lt_or_ge p t.preorderClock with hlt | hge
    · exact anc_mono hk le_rfl (h.anc (hold hx hlt) hp)
    · exact .head hbc (anc_mono (.refl _) hK.le (h'.anc hx hge))
  have hparent : ∀ {x p}, t'.blockToPre x = some p → K < p →
      ∃ q, t'.blockToPre (t'.parent x) = some q ∧ K ≤ q ∧ q < p ∧ x ∈ next (t'.parent x) := by
    intro x p hx hp
    rcases lt_trichotomy p t.preorderClock with hlt | rfl | hgt
    · obtain ⟨q, hq, h1, h2, h3⟩ := h.parent (hold hx hlt) hp
      rw [hk.parent (hold hx hlt)]
      exact ⟨q, hk.number hq, h1, h2, h3⟩
    · obtain rfl := h'.wf.inj hx hcK
      rw [hpar]
      exact ⟨K, hk.number h.number, le_rfl, hK, hcb⟩
    · obtain ⟨q, hq, h1, h2, h3⟩ := h'.parent hx hgt
      exact ⟨q, hq, by omega, h2, h3⟩
  refine ⟨h'.wf, hk.number h.number, hparent, hanc, ?_, ?_, ?_⟩
  · intro x p y hx hp hy
    rcases lt_trichotomy p t.preorderClock with hlt | rfl | hgt
    · obtain ⟨q, hq, hxy⟩ := h.edges (hold hx hlt) hp hy
      exact ⟨q, hk.number hq, fun hpq => anc_mono hk le_rfl (hxy hpq)⟩
    · obtain rfl := h'.wf.inj hx hcK
      obtain ⟨q, hq⟩ := h'.done hy
      exact ⟨q, hq, fun hpq => anc_mono (.refl _) hK.le (h'.anc hq hpq.le)⟩
    · obtain ⟨q, hq, hxy⟩ := h'.edges hx hgt hy
      exact ⟨q, hq, fun hpq => anc_mono (.refl _) hK.le (hxy hpq)⟩
  · intro a x e pa px pe hae ha hpa hx he h1 h2
    rcases lt_or_ge pe t.preorderClock with hlt | hge
    · -- nothing new is involved
      have hae' : ReflTransGen (t.TreeEdge K) a e := by
        clear h2
        induction hae generalizing pe with
        | refl => exact .refl
        | tail hm hedge ih =>
          obtain ⟨⟨p, hp, hKp⟩, rfl⟩ := hedge
          obtain rfl : p = pe := by simpa [hp] using he
          obtain ⟨q, hq, -, hqp, -⟩ := hparent hp hKp
          exact (ih hq (by omega)).tail
            ⟨⟨p, hold hp hlt, hKp⟩, (hk.parent (hold hp hlt)).symm⟩
      exact anc_mono hk le_rfl (h.interval hae' (hold ha (by omega)) hpa (hold hx (by omega))
        (hold he hlt) h1 h2)
    · -- the path ends below `c`: it starts there too, or at `b`
      have hpath : (t.preorderClock ≤ pa ∧ ReflTransGen (t'.TreeEdge t.preorderClock) a e) ∨
          a = b := by
        clear h2
        induction hae generalizing pe with
        | refl =>
          rw [ha, Option.some.injEq] at he
          exact .inl ⟨by omega, .refl⟩
        | tail hm hedge ih =>
          obtain ⟨⟨p, hp, hKp⟩, rfl⟩ := hedge
          obtain rfl : p = pe := by simpa [hp] using he
          rcases eq_or_lt_of_le hge with rfl | hgt
          · obtain rfl := h'.wf.inj hp hcK
            rw [hpar] at hm
            right
            rcases hm.cases_tail with heq | ⟨_, -, ⟨p', hp', hlt'⟩, -⟩
            · exact heq.symm
            · rw [hk.number h.number, Option.some.injEq] at hp'
              omega
          · obtain ⟨q, hq, hKq, -, -⟩ := h'.parent hp hgt
            rcases ih hq hKq with ⟨h3, h4⟩ | h3
            · exact .inl ⟨h3, h4.tail ⟨⟨p, hp, hgt⟩, rfl⟩⟩
            · exact .inr h3
      rcases hpath with ⟨hge', hae'⟩ | rfl
      · exact anc_mono (.refl _) hK.le (h'.interval hae' ha hge' hx he h1 h2)
      · exact hanc hx (hpa.trans h1)
  · intro y hy
    simp only [List.mem_append, List.mem_singleton] at hy
    rcases hy with hy | rfl
    · obtain ⟨q, hq⟩ := h.done hy
      exact ⟨q, hk.number hq⟩
    · exact ⟨_, hcK⟩

theorem leave (h : Explored next n K b done t) : Explored next n K b done (t.leave c) :=
  ⟨⟨h.wf.range, h.wf.onto⟩, h.number, h.parent, h.anc, h.edges, h.interval, h.done⟩

theorem visited (h : Explored next n K b done t) {q : Nat} (hc : t.blockToPre c = some q) :
    Explored next n K b (done ++ [c]) t := by
  refine ⟨h.wf, h.number, h.parent, h.anc, h.edges, h.interval, fun hy => ?_⟩
  simp only [List.mem_append, List.mem_singleton] at hy
  rcases hy with hy | rfl
  · exact h.done hy
  · exact ⟨q, hc⟩

end Explored

/-- A call of `get_dfs_tree` with enough fuel explores its block and keeps what was numbered. -/
theorem getDfsTree_explored (hn : ∀ b < n, ∀ c ∈ next b, c < n) :
    ∀ (fuel : Nat) {b : Nat} {t : DfsTree}, WF n t → t.blockToPre b = none → b < n →
      n < t.preorderClock + fuel →
      Explored next n t.preorderClock b (next b) (getDfsTree next fuel b t) ∧
        Keeps t (getDfsTree next fuel b t) ∧ (getDfsTree next fuel b t).parent b = t.parent b
  | 0, b, t, hwf, _, _, hfuel => by
    have := hwf.clock_le
    omega
  | fuel + 1, b, t, hwf, hb, hbn, hfuel => by
    -- the successors `l` still to come, from a state in which `done` have been looked at
    have hloop : ∀ (l done : List Nat) (t₁ : DfsTree), (∀ c ∈ l, c ∈ next b) →
        Explored next n t.preorderClock b done t₁ → Keeps (t.enter b) t₁ →
        Explored next n t.preorderClock b (done ++ l) (l.foldl (fun t c =>
            if t.blockToPre c = none then getDfsTree next fuel c (t.setParent c b) else t) t₁) ∧
          Keeps (t.enter b) (l.foldl (fun t c =>
            if t.blockToPre c = none then getDfsTree next fuel c (t.setParent c b) else t) t₁) := by
      intro l
      induction l with
      | nil =>
        intro done t₁ _ h hk
        simpa using ⟨h, hk⟩
      | cons c l ih =>
        intro done t₁ hl h hk
        have hcb : c ∈ next b := hl c (by simp)
        rw [List.foldl_cons, List.append_cons]
        rcases hc : t₁.blockToPre c with _ | q
        · have hclock := hk.clock
          simp only [enter_clock] at hclock
          obtain ⟨h1, h2, h3⟩ := getDfsTree_explored hn fuel (b := c) (t := t₁.setParent c b)
            ⟨h.wf.range, h.wf.onto⟩ hc (hn b hbn c hcb) (by simp only [setParent]; omega)
          have hpar : (getDfsTree next fuel c (t₁.setParent c b)).parent c = b := by
            rw [h3]
            simp [setParent]
          rw [if_pos rfl]
          exact ih _ _ (fun c' hc' => hl c' (by simp [hc'])) (h.call hc hcb h1 h2 hpar)
            (hk.trans ((keeps_setParent hc).trans h2))
        · rw [if_neg (by simp)]
          exact ih _ _ (fun c' hc' => hl c' (by simp [hc'])) (h.visited hc) hk
    obtain ⟨h1, h2⟩ := hloop (next b) [] (t.enter b) (fun _ h => h) (.enter hwf hb hbn) (.refl _)
    simp only [List.nil_append] at h1
    have hk : Keeps t (getDfsTree next (fuel + 1) b t) :=
      ⟨fun hx => h2.number ((keeps_enter hb).number hx),
        fun hx => h2.parent ((keeps_enter hb).number hx),
        (keeps_enter hb).clock.trans h2.clock⟩
    exact ⟨h1.leave, hk, h2.parent enter_self⟩

end BJvm
