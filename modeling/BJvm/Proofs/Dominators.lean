import BJvm.Proofs.DfsTree
import BJvm.Proofs.Reldom
import BJvm.Proofs.IdomTree
import Mathlib.Tactic.IntervalCases

/-!
# What `compute_dominator_tree` computes

The search tree of a linked control-flow graph is a `DfsNumbering`, so the loops follow the
tree-child rule: the relative dominator of a block is the tree child of its semidominator, where
the algorithm of Lengauer and Tarjan takes the block of least semidominator on the path.  The
result is right exactly when nothing bypasses the immediate dominator of that child
(`dominatorsCorrect_iff`).
-/

namespace BJvm

open Relation Graph

namespace Cfg

variable (a : Cfg)

/-- Control can pass from block `b` to block `c`. -/
def Edge (b c : Nat) : Prop := c ∈ a.next b

/-- A control-flow graph as `scan_basic_blocks` leaves it: successors exist, predecessors mirror
them, and the entry block reaches every block. -/
structure Linked : Prop where
  nonempty : 0 < a.blocks.length
  next_lt : ∀ {b c}, c ∈ a.next b → c < a.blocks.length
  prev_iff : ∀ {b c}, c < a.blocks.length → (b ∈ a.prev c ↔ c ∈ a.next b)
  reachable : ∀ {b}, b < a.blocks.length → ReflTransGen a.Edge 0 b

/-- The dominator tree is right: each `idom` is the immediate dominator and `query_dominance`
answers for the paths from the entry block. -/
structure DominatorsCorrect : Prop where
  idom : ∀ b, 0 < b → b < a.blocks.length →
    IsImmediateDominator a.Edge 0 (a.computeDominatorTree.blocks.getD b default).idom b
  query : ∀ b c, b < a.blocks.length → c < a.blocks.length →
    (queryDominance (a.computeDominatorTree.blocks.getD b default)
      (a.computeDominatorTree.blocks.getD c default) = true ↔ Dominates a.Edge 0 b c)

variable {a} (h : a.Linked)

include h

theorem Linked.explored :
    Explored a.next a.blocks.length 0 0 (a.next 0) a.dfsTree :=
  (getDfsTree_explored (fun _ _ _ hc => h.next_lt hc) (a.blocks.length + 1) (t := {})
    ⟨fun hb => by simp at hb, fun hp => by simp at hp⟩ rfl h.nonempty (by simp)).1

theorem Linked.numbered {b : Nat} (hb : b < a.blocks.length) :
    a.dfsTree.blockToPre b = some (a.pre b) := by
  have hex := h.explored
  have hsome : ∃ p, a.dfsTree.blockToPre b = some p := by
    have hreach := h.reachable hb
    induction hreach with
    | refl => exact ⟨0, hex.number⟩
    | @tail x y hx he ih =>
      have hxn : x < a.blocks.length := by
        rcases hx.cases_tail with rfl | ⟨_, -, he'⟩
        · exact h.nonempty
        · exact h.next_lt he'
      obtain ⟨p, hp⟩ := ih hxn
      rcases Nat.eq_zero_or_pos p with rfl | hpos
      · obtain rfl := hex.wf.inj hp hex.number
        exact hex.done he
      · obtain ⟨q, hq, -⟩ := hex.edges hp hpos he
        exact ⟨q, hq⟩
  obtain ⟨p, hp⟩ := hsome
  simp [pre, hp]

theorem Linked.pre_zero : a.pre 0 = 0 := by simp [pre, h.explored.number]

theorem Linked.pre_pos {b : Nat} (hb : b < a.blocks.length) (h0 : b ≠ 0) : 0 < a.pre b := by
  by_contra hp
  obtain hp : a.pre b = 0 := by omega
  exact h0 (h.explored.wf.inj (hp ▸ h.numbered hb) h.explored.number)

theorem Linked.treeEdge_iff {x y : Nat} : a.dfsTree.TreeEdge 0 x y ↔
    (y ∈ {b | b < a.blocks.length} ∧ y ≠ 0) ∧ a.dfsTree.parent y = x := by
  have hex := h.explored
  rw [DfsTree.TreeEdge]
  refine and_congr_left fun _ => ⟨?_, ?_⟩
  · rintro ⟨p, hp, hpos⟩
    refine ⟨(hex.wf.range hp).2.2, ?_⟩
    rintro rfl
    rw [hex.number, Option.some.injEq] at hp
    omega
  · rintro ⟨hy, hy0⟩
    exact ⟨_, h.numbered hy, h.pre_pos hy hy0⟩

/-- The tree of `get_dfs_tree`. -/
def Linked.tree : DfsNumbering a.Edge 0 where
  S := {b | b < a.blocks.length}
  pre := a.pre
  parent := a.dfsTree.parent
  root_mem := h.nonempty
  edge_mem := fun _ he => h.next_lt he
  pre_inj := fun hx hy heq => h.explored.wf.inj (h.numbered hx) (heq ▸ h.numbered hy)
  parent_mem := fun hx h0 => by
    obtain ⟨q, hq, -⟩ := h.explored.parent (h.numbered hx) (h.pre_pos hx h0)
    exact (h.explored.wf.range hq).2.2
  parent_edge := fun hx h0 => by
    obtain ⟨q, -, -, -, he⟩ := h.explored.parent (h.numbered hx) (h.pre_pos hx h0)
    exact he
  parent_pre := fun hx h0 => by
    obtain ⟨q, hq, -, hlt, -⟩ := h.explored.parent (h.numbered hx) (h.pre_pos hx h0)
    simpa [pre, hq] using hlt
  edge_anc := fun {x y} hx he hlt => by
    refine reach_mono ?_ fun _ _ => h.treeEdge_iff.mp
    by_cases hx0 : x = 0
    · subst hx0
      exact h.explored.anc (h.numbered (h.next_lt he)) (Nat.zero_le _)
    · obtain ⟨q, hq, hanc⟩ := h.explored.edges (h.numbered hx) (h.pre_pos hx hx0) he
      exact hanc (by simpa [pre, hq] using hlt)
  interval := fun {u x v} hx hv huv h1 h2 => by
    have hu : u < a.blocks.length := by
      rcases huv.cases_head with rfl | ⟨c, ⟨⟨hc, hc0⟩, rfl⟩, -⟩
      · exact hv
      · obtain ⟨q, hq, -⟩ := h.explored.parent (h.numbered hc) (h.pre_pos hc hc0)
        exact (h.explored.wf.range hq).2.2
    exact reach_mono (h.explored.interval (reach_mono huv fun _ _ => h.treeEdge_iff.mpr)
      (h.numbered hu) (Nat.zero_le _) (h.numbered hx) (h.numbered hv) h1 h2)
      fun _ _ => h.treeEdge_iff.mp

theorem Linked.preToBlock {b : Nat} (hb : b < a.blocks.length) :
    a.dfsTree.preToBlock (a.pre b) = b :=
  (h.explored.wf.range (h.numbered hb)).2.1

theorem Linked.pre_lt {b : Nat} (hb : b < a.blocks.length) : a.pre b < a.blocks.length :=
  (h.explored.wf.range (h.numbered hb)).1.trans_le h.explored.wf.clock_le

/-- Every number below the block count is taken. -/
theorem Linked.pre_onto {p : Nat} (hp : p < a.blocks.length) :
    ∃ b < a.blocks.length, a.pre b = p := by
  have hsurj : Set.SurjOn a.pre (Finset.range a.blocks.length : Set Nat)
      (Finset.range a.blocks.length : Set Nat) := by
    refine Finset.surjOn_of_injOn_of_card_le _ (fun b hb => ?_) (fun b hb c hc => ?_) le_rfl
    · simpa using h.pre_lt (by simpa using hb)
    · simp only [Finset.coe_range, Set.mem_Iio] at hb hc
      exact h.tree.pre_inj hb hc
  obtain ⟨b, hb, rfl⟩ := hsurj (by simpa using hp)
  exact ⟨b, by simpa using hb, rfl⟩

/-! ### The loops -/

theorem Linked.semidomState_inv : SemidomInv h.tree 0 a.semidomState := by
  have hlast : ∀ x ∈ h.tree.S, h.tree.pre x ≤ a.blocks.length - 1 := fun x hx => by
    have := h.pre_lt hx
    change a.pre x ≤ _
    omega
  refine foldl_semidomStep_inv (T := h.tree) (fun x hx y => ?_) (fun x hx => h.preToBlock hx)
    (fun x hx => (h.pre_lt hx).le) h.pre_zero _ (fun p hp => ?_)
    ⟨forest_id hlast, fun hx _ hlt => ?_, ?_⟩
  · rw [h.prev_iff hx]
    refine ⟨fun he => ⟨?_, he⟩, And.right⟩
    change y < a.blocks.length
    by_contra hy
    rw [Cfg.next, List.getD, List.getElem?_eq_none (not_lt.mp hy)] at he
    exact List.not_mem_nil he
  · have := h.nonempty
    exact h.pre_onto (by omega)
  · exact absurd (hlast _ hx) (by omega)
  · intro d w
    simp only [List.not_mem_nil, false_iff, not_and]
    intro hw hlt
    exact absurd (hlast _ hw) (by omega)

theorem Linked.isSemidominator {b : Nat} (hb : b < a.blocks.length) (h0 : b ≠ 0) :
    h.tree.IsSemidominator (a.semidomState.semidom b) b :=
  h.semidomState_inv.semidom hb h0 (h.pre_pos hb h0)

theorem Linked.reldom_spec : ReldomInv h.tree a.semidomState.semidom a.reldom ∧
    ∀ w ∈ h.tree.S, w ≠ 0 → a.semidomState.semidom w ≠ 0 → a.reldom w ≠ 0 := by
  refine reldomLoop_spec (T := h.tree) h.nonempty (fun x hx => ⟨hx, h.pre_lt hx⟩)
    (fun _ hx => h.isSemidominator hx) fun d w => ?_
  rw [h.semidomState_inv.idominates, ← and_assoc]
  refine and_congr_left fun _ => and_congr_right fun hw => ⟨?_, h.pre_pos hw⟩
  rintro hlt rfl
  exact absurd h.pre_zero (by exact hlt.ne')

theorem Linked.idomState_inv : IdomInv h.tree a.semidomState.semidom a.reldom a.blocks.length
    a.idomState := by
  have hpos : ∀ {w}, w ∈ h.tree.S → w ≠ 0 → ¬ h.tree.pre w < 1 := fun hw h0 => by
    have := h.pre_pos hw h0
    change ¬ a.pre _ < 1
    omega
  have hn := h.nonempty
  have := foldl_idomStep_inv h.reldom_spec.1 (fun x hx => h.preToBlock hx) h.pre_zero
    (a.blocks.length - 1) 1 le_rfl (fun q hq => h.pre_onto (by omega))
    (s := (fun _ => 0, fun _ => []))
    ⟨rfl, fun hw h0 hlt => absurd hlt (hpos hw h0),
      fun {d w} => iff_of_false (List.not_mem_nil) fun hw => hpos hw.1.1 hw.1.2.1 hw.1.2.2⟩
  rwa [show 1 + (a.blocks.length - 1) = a.blocks.length by omega] at this

theorem Linked.treeChildRule : h.tree.TreeChildRule a.idomState.1 :=
  treeChildRule_of_idom (fun _ hx => h.isSemidominator hx) h.reldom_spec.1
    (fun _ hx => h.pre_lt hx) h.idomState_inv h.pre_zero h.reldom_spec.2

/-! ### The tree of immediate dominators -/

/-- `d` is the stored immediate dominator of `w`. -/
def IdomChild (a : Cfg) (d w : Nat) : Prop := (w < a.blocks.length ∧ w ≠ 0) ∧ a.idomState.1 w = d

theorem Linked.idom_anc {b : Nat} (hb : b < a.blocks.length) (h0 : b ≠ 0) :
    h.tree.Anc (a.idomState.1 b) b ∧ a.idomState.1 b ≠ b :=
  BJvm.idom_anc (fun _ hx => h.isSemidominator hx) h.reldom_spec.1 (fun _ hx => h.pre_lt hx)
    h.idomState_inv hb h0

theorem Linked.isForest : IsForest a.IdomChild a.pre := by
  refine ⟨fun h1 h2 => h1.2.symm.trans h2.2, ?_⟩
  rintro _ w ⟨⟨hw, h0⟩, rfl⟩
  obtain ⟨hanc, hne⟩ := h.idom_anc hw h0
  exact hanc.pre_lt (hanc.mem_left hw) hne

theorem Linked.idomChild_zero {b : Nat} (hb : b < a.blocks.length) :
    ReflTransGen a.IdomChild 0 b := by
  induction hk : a.pre b using Nat.strong_induction_on generalizing b with
  | _ k ih =>
    subst hk
    by_cases h0 : b = 0
    · rw [h0]
    · have hc : a.IdomChild (a.idomState.1 b) b := ⟨⟨hb, h0⟩, rfl⟩
      exact (ih _ (h.isForest.rank_lt hc) ((h.idom_anc hb h0).1.mem_left hb) rfl).tail hc

/-- `query_dominance` answers whether one block is above the other in the stored tree. -/
theorem Linked.query_iff {b c : Nat} (hb : b < a.blocks.length) (hc : c < a.blocks.length) :
    (a.idomTree.idomPre b ≤ a.idomTree.idomPre c ∧ a.idomTree.idomPost c ≤ a.idomTree.idomPost b) ↔
      ReflTransGen a.IdomChild b c := by
  refine (idomDfs_numbered (n := a.blocks.length) h.isForest (fun d w => ?_) (fun x y hxy => ?_)
    (a.blocks.length + 1) (b := 0) (t := {}) (by omega) ?_ (fun _ _ => rfl)).nested
    (h.idomChild_zero hb) (h.idomChild_zero hc)
  · rw [h.idomState_inv.idominates]
    exact and_congr_left fun _ => ⟨fun hw => ⟨hw.1, hw.2.1⟩, fun hw => ⟨hw.1, hw.2, h.pre_lt hw.1⟩⟩
  · exact (h.pre_lt hxy.1.1).le
  · exact (h.pre_lt h.nonempty).le

/-- In the tree of the immediate dominators, above means dominates. -/
theorem Linked.above_iff
    (hd : ∀ b < a.blocks.length, b ≠ 0 → IsImmediateDominator a.Edge 0 (a.idomState.1 b) b)
    {b c : Nat} (hc : c < a.blocks.length) :
    ReflTransGen a.IdomChild b c ↔ Dominates a.Edge 0 b c := by
  constructor
  · intro hbc
    induction hbc with
    | refl => exact dominates_self
    | tail _ he ih =>
      obtain ⟨⟨hw, h0⟩, rfl⟩ := he
      exact (ih ((h.idom_anc hw h0).1.mem_left hw)).trans (hd _ hw h0).dominates
  · intro hbc
    induction hk : a.pre c using Nat.strong_induction_on generalizing c with
    | _ k ih =>
      subst hk
      by_cases hbc' : b = c
      · rw [hbc']
      · have hanc := h.tree.anc_of_dominates hc hbc
        have hlt := hanc.pre_lt (hanc.mem_left hc) hbc'
        have h0 : c ≠ 0 := by
          rintro rfl
          have := h.pre_zero
          change a.pre b < a.pre 0 at hlt
          omega
        have hchild : a.IdomChild (a.idomState.1 c) c := ⟨⟨hc, h0⟩, rfl⟩
        exact (ih _ (h.isForest.rank_lt hchild) ((h.idom_anc hc h0).1.mem_left hc)
          ((hd c hc h0).closest b hbc' hbc) rfl).tail hchild

omit h in
theorem computeDominatorTree_getD (hnew : a.dominatorTreeComputed = false) {b : Nat}
    (hb : b < a.blocks.length) :
    (a.computeDominatorTree.blocks.getD b default).idom = a.idomState.1 b ∧
      (a.computeDominatorTree.blocks.getD b default).idomPre = a.idomTree.idomPre b ∧
      (a.computeDominatorTree.blocks.getD b default).idomPost = a.idomTree.idomPost b := by
  simp [computeDominatorTree, hnew, List.getD, hb]

/-- The dominator tree is right exactly when no block between the tree child of a semidominator
and its block can be reached around the immediate dominator of the child. -/
theorem dominatorsCorrect_iff (hnew : a.dominatorTreeComputed = false) :
    a.DominatorsCorrect ↔ h.tree.NoBypass := by
  rw [← DfsNumbering.treeChild_rule_iff h.treeChildRule]
  constructor
  · intro hcorrect w hw h0
    have := hcorrect.idom w (by omega) hw
    rwa [(computeDominatorTree_getD hnew hw).1] at this
  · intro hd
    refine ⟨fun b h0 hb => ?_, fun b c hb hc => ?_⟩
    · rw [(computeDominatorTree_getD hnew hb).1]
      exact hd b hb (by omega)
    · obtain ⟨-, hb1, hb2⟩ := computeDominatorTree_getD hnew hb
      obtain ⟨-, hc1, hc2⟩ := computeDominatorTree_getD hnew hc
      rw [← h.above_iff hd hc, ← h.query_iff hb hc, queryDominance, hb1, hb2, hc1, hc2]
      simp

omit h in
theorem mem_prevEdges {next : List (List Nat)} {b c : Nat} :
    b ∈ prevEdges next c ↔ c ∈ next.getD b [] := by
  simp only [prevEdges, List.mem_flatMap, List.mem_map, List.mem_filter, decide_eq_true_eq,
    Prod.exists, List.mem_zipIdx_iff_getElem?]
  constructor
  · rintro ⟨l, i, hl, d, ⟨hd, rfl⟩, rfl⟩
    simpa [List.getD, hl] using hd
  · intro hc
    rcases hl : next[b]? with _ | l
    · simp [List.getD, hl] at hc
    · exact ⟨l, b, hl, c, ⟨by simpa [List.getD, hl] using hc, rfl⟩, rfl⟩

omit h in
theorem linkBlocks_getD {bs : List BasicBlock} {b : Nat} :
    ((linkBlocks bs).getD b default).next = (bs.map (·.next)).getD b [] ∧
      (b < bs.length → ((linkBlocks bs).getD b default).prev = prevEdges (bs.map (·.next)) b) := by
  rcases lt_or_ge b bs.length with hb | hb
  · simp [linkBlocks, List.getD, hb]
  · refine ⟨?_, fun h => absurd h (by omega)⟩
    simp only [linkBlocks, List.getD, List.getElem?_map, List.getElem?_eq_none
      (by simpa using hb : bs.zipIdx.length ≤ b), List.getElem?_eq_none hb]
    rfl

omit h in
/-- Blocks that `linkBlocks` has linked are linked, if their edges stay among them and the entry
block reaches them. -/
theorem linked_of_linkBlocks {bs : List BasicBlock} (hne : 0 < bs.length)
    (hlt : ∀ l ∈ bs.map (·.next), ∀ c ∈ l, c < bs.length)
    (hreach : ∀ b < bs.length,
      ReflTransGen (fun x y => y ∈ (bs.map (·.next)).getD x []) 0 b) :
    Cfg.Linked { blocks := linkBlocks bs } := by
  have hlen : (linkBlocks bs).length = bs.length := by simp [linkBlocks]
  have hnext : ∀ b, Cfg.next { blocks := linkBlocks bs } b = (bs.map (·.next)).getD b [] :=
    fun b => linkBlocks_getD.1
  refine ⟨by simpa [hlen] using hne, fun {b c} hc => ?_, fun {b c} hc => ?_, fun {b} hb => ?_⟩
  · rw [hnext] at hc
    rcases hl : (bs.map (·.next))[b]? with _ | l
    · simp [List.getD, hl] at hc
    · simp only [List.getD, hl, Option.getD_some] at hc
      simpa [hlen] using hlt l (List.mem_of_getElem? hl) c hc
  · rw [hnext, Cfg.prev, linkBlocks_getD.2 (by simpa [hlen] using hc), mem_prevEdges]
  · refine reach_mono (hreach b (by simpa [hlen] using hb)) fun x y he => ?_
    rw [Edge, hnext]
    exact he

end Cfg

/-- Block 4 has the semidominator 1 and hangs below 3, which block 0 reaches around 1. -/
def bypassGraph : Cfg := .ofSuccessors [[1, 3], [2, 4], [3], [4], []]

theorem bypassGraph_linked : bypassGraph.Linked := by
  have hedge : ∀ {x y : Nat}, y ∈ [[1, 3], [2, 4], [3], [4], []].getD x [] →
      ReflTransGen (fun x y : Nat => y ∈ [[1, 3], [2, 4], [3], [4], []].getD x []) x y :=
    fun h => .single h
  refine Cfg.linked_of_linkBlocks (by decide) (by decide) fun b hb => ?_
  simp only [List.length_map, List.length_cons, List.length_nil] at hb
  interval_cases b
  · exact .refl
  · exact hedge (by decide)
  · exact (hedge (y := 1) (by decide)).trans (hedge (by decide))
  · exact hedge (by decide)
  · exact (hedge (y := 1) (by decide)).trans (hedge (by decide))

theorem bypassGraph_correct_iff :
    bypassGraph.DominatorsCorrect ↔ bypassGraph_linked.tree.NoBypass :=
  Cfg.dominatorsCorrect_iff bypassGraph_linked rfl

/-- The stored immediate dominator of block 4 is 1, though control can pass from 0 to 3 to 4. -/
theorem bypassGraph_wrong : bypassGraph.Linked ∧ bypassGraph.dominatorTreeComputed = false ∧
    (bypassGraph.computeDominatorTree.blocks.getD 4 default).idom = 1 ∧
    ¬ bypassGraph.DominatorsCorrect := by
  have hidom : (bypassGraph.computeDominatorTree.blocks.getD 4 default).idom = 1 := by
    decide +kernel
  refine ⟨bypassGraph_linked, rfl, hidom, fun h => ?_⟩
  have h4 := h.idom 4 (by decide) (by decide)
  rw [hidom] at h4
  have hpath : IsPath bypassGraph.Edge 0 4 [0, 3, 4] :=
    ⟨rfl, rfl, by simp [Cfg.Edge]; decide⟩
  exact absurd (h4.dominates _ hpath) (by decide)

end BJvm
