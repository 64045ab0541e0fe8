import BJvm.Analysis.Reducibility
import BJvm.Graph.Reducible
import BJvm.Proofs.Dominators

/-!
# `attempt_reduce_cfg` decides reducibility

The search among the edges that are not flagged finds a cycle if there is one: the blocks it has
left are closed under these edges, and on no cycle (`cycleSearch_spec`).  As every cycle has a
retreating edge, there is none if all retreating edges are flagged; and a retreating edge that is
not flagged closes a cycle of tree edges, which are not flagged either.
-/

namespace BJvm

open Relation Graph

namespace Cfg

variable {a : Cfg} {i b c n : Nat}

/-! ### The flags -/

/-- The edge from `b` to `c` is flagged. -/
def Flagged (a : Cfg) (b c : Nat) : Prop := queryDominance (a.block c) (a.block b) = true

theorem foldl_markEdge (i : Nat) : ∀ (l : List Nat) (f : EdgeFlags),
    (l.foldl (a.markEdge i) f).isBackedge i =
        f.isBackedge i ++ l.map (fun c => queryDominance (a.block c) (a.block i)) ∧
      (∀ j, j ≠ i → (l.foldl (a.markEdge i) f).isBackedge j = f.isBackedge j) ∧
      ∀ c, (l.foldl (a.markEdge i) f).isLoopHeader c = true ↔
        f.isLoopHeader c = true ∨ c ∈ l ∧ a.Flagged i c
  | [], f => by simp
  | next :: l, f => by
    obtain ⟨h1, h2, h3⟩ := foldl_markEdge i l (a.markEdge i f next)
    rw [List.foldl_cons]
    refine ⟨?_, fun j hj => ?_, fun c => ?_⟩
    · rw [h1]
      simp [markEdge]
    · rw [h2 j hj]
      simp [markEdge, hj]
    · rw [h3, markEdge, Flagged]
      by_cases hc : c = next
      · subst hc
        simp [or_assoc]
        tauto
      · simp [hc]

theorem foldl_blocks (f : EdgeFlags) : ∀ n : Nat,
    (∀ i, ((List.range n).foldl (fun f i => (a.next i).foldl (a.markEdge i) f) f).isBackedge i =
      if i < n then
        f.isBackedge i ++ (a.next i).map fun c => queryDominance (a.block c) (a.block i)
      else f.isBackedge i) ∧
    ∀ c, ((List.range n).foldl (fun f i => (a.next i).foldl (a.markEdge i) f) f).isLoopHeader c =
      true ↔ f.isLoopHeader c = true ∨ ∃ i < n, c ∈ a.next i ∧ a.Flagged i c
  | 0 => by simp
  | n + 1 => by
    obtain ⟨h1, h2⟩ := foldl_blocks f n
    obtain ⟨g1, g2, g3⟩ := foldl_markEdge (a := a) n (a.next n)
      ((List.range n).foldl (fun f i => (a.next i).foldl (a.markEdge i) f) f)
    rw [List.range_succ, List.foldl_append, List.foldl_cons, List.foldl_nil]
    refine ⟨fun i => ?_, fun c => ?_⟩
    · by_cases hi : i = n
      · subst hi
        rw [g1, h1, if_neg (Nat.lt_irrefl _), if_pos (Nat.lt_succ_self _)]
      · rw [g2 i hi, h1]
        simp only [Nat.lt_succ_iff_lt_or_eq, hi, or_false]
    · rw [g3, h2, or_assoc]
      refine or_congr_right ⟨?_, ?_⟩
      · rintro (⟨i, hi, hc⟩ | hc)
        · exact ⟨i, by omega, hc⟩
        · exact ⟨n, by omega, hc⟩
      · rintro ⟨i, hi, hc⟩
        rcases Nat.lt_succ_iff_lt_or_eq.mp hi with hi | rfl
        · exact .inl ⟨i, hi, hc⟩
        · exact .inr hc

theorem block_markBackedges (hb : b < a.blocks.length) :
    a.markBackedges.block b =
      { a.block b with
        isBackedge := a.edgeFlags.isBackedge b
        isLoopHeader := a.edgeFlags.isLoopHeader b } := by
  simp [block, markBackedges, List.getD, hb]

theorem isBackedge_markBackedges (hb : b < a.blocks.length) :
    (a.markBackedges.block b).isBackedge =
      (a.next b).map fun c => queryDominance (a.block c) (a.block b) := by
  rw [block_markBackedges hb]
  show a.edgeFlags.isBackedge b = _
  rw [edgeFlags, (foldl_blocks _ _).1, if_pos hb]
  rfl

theorem isLoopHeader_markBackedges (hfresh : ∀ b ∈ a.blocks, b.isLoopHeader = false)
    (hc : c < a.blocks.length) :
    (a.markBackedges.block c).isLoopHeader = true ↔
      ∃ b < a.blocks.length, c ∈ a.next b ∧ a.Flagged b c := by
  rw [block_markBackedges hc]
  show a.edgeFlags.isLoopHeader c = true ↔ _
  have hblock : (a.block c).isLoopHeader = false :=
    hfresh _ (by simp [block, List.getD, hc])
  rw [edgeFlags, (foldl_blocks _ _).2]
  simp [hblock]

/-! ### The search for a cycle -/

/-- The edge from `b` to `c` is there and has no flag. -/
def Forward (a : Cfg) (b c : Nat) : Prop := (c, false) ∈ (a.block b).next.zip (a.block b).isBackedge

/-- What a call of `forward_edges_form_a_cycle` starts from, and what its loop is in the middle of:
block `i` has the colour, and is reached from every block whose call has not ended. -/
structure Searching (a : Cfg) (fuel i colour : Nat) (visited : Nat → Nat) : Prop where
  colour : visited i = colour
  lt : i < a.blocks.length
  le : ∀ x, visited x ≤ 2
  open_ : ∀ x, visited x = 1 → ReflTransGen a.Forward x i
  fuel : ((Finset.range a.blocks.length).filter fun x => visited x = 0).card < fuel
  done : ClosedAcyclic a.Forward fun x => visited x = 2

/-- Blocks have only been finished. -/
structure Finishes (a : Cfg) (visited visited' : Nat → Nat) : Prop where
  le : ∀ x, visited' x ≤ 2
  open_ : ∀ x, visited' x = 1 ↔ visited x = 1
  keep : ∀ x, visited x = 2 → visited' x = 2
  done : ClosedAcyclic a.Forward fun x => visited' x = 2

/-- What the search has found out: a cycle, or blocks on no cycle. -/
def SearchPost (a : Cfg) (visited : Nat → Nat) (P : (Nat → Nat) → Prop)
    (res : Bool × (Nat → Nat)) : Prop :=
  (res.1 = true ∧ ∃ x < a.blocks.length, TransGen a.Forward x x) ∨
    (res.1 = false ∧ Finishes a visited res.2 ∧ P res.2)

variable {visited visited' : Nat → Nat} {fuel : Nat}

theorem card_white_le (h : ∀ x, visited' x = 0 → visited x = 0) :
    ((Finset.range n).filter fun x => visited' x = 0).card ≤
      ((Finset.range n).filter fun x => visited x = 0).card :=
  Finset.card_le_card fun x hx => by
    rw [Finset.mem_filter] at hx ⊢
    exact ⟨hx.1, h x hx.2⟩

theorem Searching.step (h : Searching a fuel i 1 visited) (hf : Finishes a visited visited') :
    Searching a fuel i 1 visited' := by
  refine ⟨(hf.open_ i).mpr h.colour, h.lt, hf.le, fun x hx => h.open_ x ((hf.open_ x).mp hx), ?_,
    hf.done⟩
  refine (card_white_le fun x hx => ?_).trans_lt h.fuel
  have h1 := hf.open_ x
  have h2 := hf.keep x
  have h3 := h.le x
  omega

theorem Finishes.trans {visited'' : Nat → Nat} (h : Finishes a visited visited')
    (h' : Finishes a visited' visited'') : Finishes a visited visited'' :=
  ⟨h'.le, fun x => (h'.open_ x).trans (h.open_ x), fun x hx => h'.keep x (h.keep x hx), h'.done⟩

theorem foldl_searchEdge_true (search : Nat → (Nat → Nat) → Bool × (Nat → Nat)) :
    ∀ (l : List (Nat × Bool)) (visited : Nat → Nat),
      l.foldl (searchEdge search) (true, visited) = (true, visited)
  | [], _ => rfl
  | _ :: l, visited => foldl_searchEdge_true search l visited

/-- One successor. -/
theorem searchEdge_spec {search : Nat → (Nat → Nat) → Bool × (Nat → Nat)}
    (hsearch : ∀ {c : Nat} {v : Nat → Nat}, Searching a fuel c 0 v →
      SearchPost a v (fun v' => v' c = 2) (search c v))
    (h : Searching a fuel i 1 visited) (he : a.Forward i c) (hc : c < a.blocks.length) :
    SearchPost a visited (fun v' => v' c = 2) (searchEdge search (false, visited) (c, false)) := by
  rw [searchEdge]
  simp only [Bool.or_self, Bool.false_eq_true, if_false]
  split_ifs with h0 h1
  · exact hsearch ⟨h0, hc, h.le, fun x hx => (h.open_ x hx).tail he, h.fuel, h.done⟩
  · exact .inl ⟨rfl, c, hc, TransGen.tail' (h.open_ c h1) he⟩
  · have := h.le c
    exact .inr ⟨rfl, ⟨h.le, fun _ => .rfl, fun _ hx => hx, h.done⟩, by
      show visited c = 2
      omega⟩

/-- The loop over the successors. -/
theorem foldl_searchEdge_spec {search : Nat → (Nat → Nat) → Bool × (Nat → Nat)}
    (hn : ∀ {b c}, a.Forward b c → c < a.blocks.length)
    (hsearch : ∀ {c : Nat} {v : Nat → Nat}, Searching a fuel c 0 v →
      SearchPost a v (fun v' => v' c = 2) (search c v)) :
    ∀ (l : List (Nat × Bool)) {visited : Nat → Nat}, Searching a fuel i 1 visited →
      (∀ c, (c, false) ∈ l → a.Forward i c) →
      SearchPost a visited (fun v' => ∀ c, (c, false) ∈ l → v' c = 2)
        (l.foldl (searchEdge search) (false, visited))
  | [], visited, h, _ =>
    .inr ⟨rfl, ⟨h.le, fun _ => .rfl, fun _ hx => hx, h.done⟩, by simp⟩
  | (c, true) :: l, visited, h, hl => by
    rw [List.foldl_cons, show searchEdge search (false, visited) (c, true) = (false, visited) from
      rfl]
    rcases foldl_searchEdge_spec hn hsearch l h fun c hc => hl c (.tail _ hc) with hr | ⟨h1, h2, h3⟩
    · exact .inl hr
    · exact .inr ⟨h1, h2, by simpa using h3⟩
  | (c, false) :: l, visited, h, hl => by
    have he := hl c (.head _)
    rw [List.foldl_cons]
    rcases hs : searchEdge search (false, visited) (c, false) with ⟨fail, v1⟩
    rcases hs ▸ searchEdge_spec hsearch h he (hn he) with ⟨rfl, hcycle⟩ | ⟨rfl, hf, hc⟩
    · rw [foldl_searchEdge_true]
      exact .inl ⟨rfl, hcycle⟩
    · rcases foldl_searchEdge_spec hn hsearch l (h.step hf) fun c hc => hl c (.tail _ hc) with
        hr | ⟨h1, h2, h3⟩
      · exact .inl hr
      · refine .inr ⟨h1, hf.trans h2, fun d hd => ?_⟩
        rcases List.mem_cons.mp hd with hd | hd
        · cases hd
          exact h2.keep c hc
        · exact h3 d hd

theorem update_one_eq_two (h : visited i = 0) (x : Nat) :
    Function.update visited i 1 x = 2 ↔ visited x = 2 := by
  by_cases hx : x = i
  · rw [hx, Function.update_self, h]
    omega
  · rw [Function.update_of_ne hx]

/-- The call for a block begins. -/
theorem Searching.enter (h : Searching a (fuel + 1) i 0 visited) :
    Searching a fuel i 1 (Function.update visited i 1) := by
  refine ⟨Function.update_self .., h.lt, fun x => ?_, fun x hx => ?_, ?_,
    h.done.congr (update_one_eq_two h.colour)⟩
  · by_cases hx : x = i
    · rw [hx, Function.update_self]
      omega
    · rw [Function.update_of_ne hx]
      exact h.le x
  · by_cases hxi : x = i
    · rw [hxi]
    · rw [Function.update_of_ne hxi] at hx
      exact h.open_ x hx
  · -- the block is no longer among those that have not been visited
    refine Nat.lt_of_lt_of_le (Finset.card_lt_card ?_) (Nat.lt_succ_iff.mp h.fuel)
    refine Finset.ssubset_iff_of_subset (fun x hx => ?_) |>.mpr ⟨i, ?_, ?_⟩
    · rw [Finset.mem_filter] at hx ⊢
      refine ⟨hx.1, ?_⟩
      by_cases hxi : x = i
      · rw [hxi, h.colour]
      · rw [Function.update_of_ne hxi] at hx
        exact hx.2
    · rw [Finset.mem_filter, Finset.mem_range]
      exact ⟨h.lt, h.colour⟩
    · rw [Finset.mem_filter, Function.update_self]
      omega

/-- The call for a block ends, with its successors finished. -/
theorem Finishes.leave (hf : Finishes a (Function.update visited i 1) visited')
    (h : visited i = 0) (hnext : ∀ c, a.Forward i c → visited' c = 2) :
    Finishes a visited (Function.update visited' i 2) := by
  have hvi : visited' i = 1 := (hf.open_ i).mpr (Function.update_self ..)
  refine ⟨fun x => ?_, fun x => ?_, fun x hx => ?_, ?_⟩
  · by_cases hx : x = i
    · rw [hx, Function.update_self]
    · rw [Function.update_of_ne hx]
      exact hf.le x
  · by_cases hx : x = i
    · rw [hx, Function.update_self, h]
      omega
    · rw [Function.update_of_ne hx, hf.open_ x, Function.update_of_ne hx]
  · by_cases hxi : x = i
    · rw [hxi, Function.update_self]
    · rw [Function.update_of_ne hxi]
      exact hf.keep x ((update_one_eq_two h x).mpr hx)
  · refine (hf.done.add (v := i) (by omega) fun y hy => hnext y hy).congr fun x => ?_
    by_cases hx : x = i
    · simp [hx]
    · simp [hx]

/-- One call with enough fuel. -/
theorem cycleSearch_spec (hn : ∀ {b c}, a.Forward b c → c < a.blocks.length) :
    ∀ (fuel : Nat) {i : Nat} {visited : Nat → Nat}, Searching a fuel i 0 visited →
      SearchPost a visited (fun v' => v' i = 2) (a.forwardEdgesFormACycle fuel i visited)
  | 0, _, _, h => absurd h.fuel (Nat.not_lt_zero _)
  | fuel + 1, i, visited, h => by
    rw [forwardEdgesFormACycle]
    rcases hs : ((a.block i).next.zip (a.block i).isBackedge).foldl
      (searchEdge (a.forwardEdgesFormACycle fuel)) (false, Function.update visited i 1) with
      ⟨fail, v⟩
    rcases hs ▸ foldl_searchEdge_spec hn (cycleSearch_spec hn fuel) _ h.enter fun _ hc => hc with
      ⟨rfl, hcycle⟩ | ⟨rfl, hf, hall⟩
    · exact .inl ⟨rfl, hcycle⟩
    · exact .inr ⟨rfl, hf.leave h.colour hall, Function.update_self ..⟩

/-- The search from the entry block: it fails, and there is a cycle, or it marks blocks that are on
none, the entry block among them. -/
theorem search_from_entry (hn : ∀ {b c}, a.Forward b c → c < a.blocks.length)
    (h0 : 0 < a.blocks.length) :
    ((a.forwardEdgesFormACycle (a.blocks.length + 1) 0 fun _ => 0).1 = true ∧
      ∃ x < a.blocks.length, TransGen a.Forward x x) ∨
    ((a.forwardEdgesFormACycle (a.blocks.length + 1) 0 fun _ => 0).1 = false ∧
      ∀ x, ReflTransGen a.Forward 0 x → ¬ TransGen a.Forward x x) := by
  have hpre : Searching a (a.blocks.length + 1) 0 0 fun _ => 0 := by
    refine ⟨rfl, h0, fun _ => by omega, fun x hx => absurd hx (by omega), ?_, ?_⟩
    · exact Nat.lt_succ_of_le ((Finset.card_filter_le ..).trans (by rw [Finset.card_range]))
    · exact ⟨fun hx => absurd hx (by omega), fun hx => absurd hx (by omega)⟩
  rcases cycleSearch_spec hn _ hpre with h | ⟨h1, h2, h3⟩
  · exact .inl h
  · exact .inr ⟨h1, fun x hx => h2.done.acyclic (h2.done.reach h3 hx)⟩

/-! ### Reducibility -/

/-- An edge from `b` that goes to `c`, which is above `b` in the search tree. -/
def Retreating (a : Cfg) (b c : Nat) : Prop :=
  a.Edge b c ∧ ReflTransGen (a.dfsTree.TreeEdge 0) c b

/-- Every retreating edge goes to a dominator of its source. -/
def Reducible (a : Cfg) : Prop := ∀ b c, a.Retreating b c → Dominates a.Edge 0 c b

/-- `query_dominance` answers for the paths from the entry block. -/
def DominanceCorrect (a : Cfg) : Prop :=
  ∀ b c, b < a.blocks.length → c < a.blocks.length →
    (queryDominance (a.block b) (a.block c) = true ↔ Dominates a.Edge 0 b c)

/-- The flags of a graph are those of the retreating edges, and of the blocks they go to. -/
structure FlagsRight (a a' : Cfg) : Prop where
  backedge : ∀ b < a.blocks.length,
    (a'.block b).isBackedge.length = (a.next b).length ∧
      ∀ j c : Nat, (a.next b)[j]? = some c →
        ((a'.block b).isBackedge[j]? = some true ↔ a.Retreating b c)
  loopHeader : ∀ c < a.blocks.length,
    (a'.block c).isLoopHeader = true ↔ ∃ b < a.blocks.length, a.Retreating b c

theorem length_markBackedges : a.markBackedges.blocks.length = a.blocks.length := by
  simp [markBackedges]

theorem forward_markBackedges (hb : b < a.blocks.length) :
    a.markBackedges.Forward b c ↔ a.Edge b c ∧ ¬ a.Flagged b c := by
  have hnext : (a.markBackedges.block b).next = a.next b := by
    rw [block_markBackedges hb]
    rfl
  rw [Forward, hnext, isBackedge_markBackedges hb, ← List.map_prod_left_eq_zip, List.mem_map]
  simp only [Prod.mk.injEq, Edge, Flagged, Bool.not_eq_true]
  constructor
  · rintro ⟨d, hd, rfl, hf⟩
    exact ⟨hd, hf⟩
  · rintro ⟨hc, hf⟩
    exact ⟨c, hc, rfl, hf⟩

theorem isBackedge_true_iff (hb : b < a.blocks.length) {j : Nat} (hc : (a.next b)[j]? = some c) :
    (a.markBackedges.block b).isBackedge[j]? = some true ↔ a.Flagged b c := by
  rw [isBackedge_markBackedges hb, List.getElem?_map, hc, Option.map_some, Option.some.injEq,
    Flagged]

section

variable (h : a.Linked) (hd : a.DominanceCorrect)

include h

theorem Linked.retreating_iff : a.Retreating b c ↔ a.Edge b c ∧ h.tree.Anc c b := by
  refine and_congr_right fun _ => ⟨fun hr => ?_, fun hr => ?_⟩
  · exact reach_mono hr fun _ _ => h.treeEdge_iff.mp
  · exact reach_mono hr fun _ _ => h.treeEdge_iff.mpr

theorem Linked.forward_lt (he : a.markBackedges.Forward b c) :
    c < a.markBackedges.blocks.length := by
  rw [length_markBackedges]
  rcases Nat.lt_or_ge b a.blocks.length with hb | hb
  · exact h.next_lt ((forward_markBackedges hb).mp he).1
  · have hnone : a.markBackedges.blocks[b]? = none :=
      List.getElem?_eq_none (by rwa [length_markBackedges])
    rw [Forward, block, List.getD, hnone] at he
    exact absurd he List.not_mem_nil

include hd

/-- What is flagged is a retreating edge, and an edge to a dominator. -/
theorem Linked.flagged_iff (hb : b < a.blocks.length) (he : a.Edge b c) :
    a.Flagged b c ↔ Dominates a.Edge 0 c b :=
  hd c b (h.next_lt he) hb

theorem Linked.retreating_of_flagged (hb : b < a.blocks.length) (he : a.Edge b c)
    (hf : a.Flagged b c) : a.Retreating b c :=
  h.retreating_iff.mpr ⟨he, h.tree.anc_of_dominates hb ((h.flagged_iff hd hb he).mp hf)⟩

/-- The search finds no cycle if the graph is reducible. -/
theorem Linked.no_cycle_of_reducible (hr : a.Reducible) {x : Nat} (hx : x < a.blocks.length) :
    ¬ TransGen a.markBackedges.Forward x x := by
  intro hcycle
  -- the edges of the cycle, from blocks of the graph
  let R : Nat → Nat → Prop := fun u v => u < a.blocks.length ∧ a.markBackedges.Forward u v
  have hR : ∀ u v, R u v → a.Edge u v := fun u v huv => ((forward_markBackedges huv.1).mp huv.2).1
  have hcycle' : TransGen R x x := by
    have hgen : ∀ {y}, TransGen a.markBackedges.Forward x y → TransGen R x y := fun hy => by
      induction hy with
      | single he => exact .single ⟨hx, he⟩
      | tail hy he ih =>
        refine ih.tail ⟨?_, he⟩
        obtain ⟨z, -, hz⟩ := TransGen.tail'_iff.mp hy
        exact length_markBackedges ▸ h.forward_lt hz
    exact hgen hcycle
  obtain ⟨u, v, -, -, huv, hanc⟩ := h.tree.exists_retreating hR hx hcycle'
  obtain ⟨he, hnot⟩ := (forward_markBackedges huv.1).mp huv.2
  exact hnot ((h.flagged_iff hd huv.1 he).mpr (hr u v (h.retreating_iff.mpr ⟨he, hanc⟩)))

/-- Tree edges are not flagged. -/
theorem Linked.forward_of_tree (hc : c < a.blocks.length) (h0 : c ≠ 0) :
    a.markBackedges.Forward (a.dfsTree.parent c) c := by
  have hp : a.dfsTree.parent c < a.blocks.length := h.tree.parent_mem hc h0
  have he : a.Edge (a.dfsTree.parent c) c := h.tree.parent_edge hc h0
  rw [forward_markBackedges hp, h.flagged_iff hd hp he]
  exact ⟨he, h.tree.not_dominates_parent hc h0⟩

theorem Linked.forward_of_anc (hanc : h.tree.Anc b c) :
    ReflTransGen a.markBackedges.Forward b c := by
  induction hanc with
  | refl => exact .refl
  | tail _ he ih =>
    obtain ⟨⟨hc, h0⟩, rfl⟩ := he
    exact ih.tail (h.forward_of_tree hd hc h0)

/-- The graph is reducible if the search finds no cycle. -/
theorem Linked.reducible_of_no_cycle
    (hno : ∀ x, ReflTransGen a.markBackedges.Forward 0 x →
      ¬ TransGen a.markBackedges.Forward x x) : a.Reducible := by
  intro b c hret
  obtain ⟨he, hanc⟩ := h.retreating_iff.mp hret
  by_contra hnot
  have hb : b < a.blocks.length := by
    by_contra hge
    have hnone : a.blocks[b]? = none := List.getElem?_eq_none (by omega)
    rw [Edge, next, List.getD, hnone] at he
    exact absurd he List.not_mem_nil
  have hc : c < a.blocks.length := h.next_lt he
  have hforward : a.markBackedges.Forward b c :=
    (forward_markBackedges hb).mpr ⟨he, fun hf => hnot ((h.flagged_iff hd hb he).mp hf)⟩
  exact hno c (h.forward_of_anc hd (h.tree.root_anc hc))
    (TransGen.tail' (h.forward_of_anc hd hanc) hforward)

theorem Linked.flagsRight (hfresh : ∀ b ∈ a.blocks, b.isLoopHeader = false) (hr : a.Reducible) :
    FlagsRight a a.markBackedges := by
  have hflag : ∀ {b c}, b < a.blocks.length → a.Edge b c → (a.Flagged b c ↔ a.Retreating b c) :=
    fun hb he => ⟨h.retreating_of_flagged hd hb he,
      fun hret => (h.flagged_iff hd hb he).mpr (hr _ _ hret)⟩
  refine ⟨fun b hb => ⟨?_, fun j c hj => ?_⟩, fun c hc => ?_⟩
  · rw [isBackedge_markBackedges hb, List.length_map]
  · rw [isBackedge_true_iff hb hj, hflag hb (List.mem_of_getElem? hj)]
  · rw [isLoopHeader_markBackedges hfresh hc]
    constructor
    · rintro ⟨b, hb, he, hf⟩
      exact ⟨b, hb, (hflag hb he).mp hf⟩
    · rintro ⟨b, hb, hret⟩
      exact ⟨b, hb, hret.1, (hflag hb hret.1).mpr hret⟩

/-- `attempt_reduce_cfg` succeeds if and only if the graph is reducible, and then marks the
retreating edges and the loop headers. -/
theorem Linked.attemptReduceCfg_spec (hfresh : ∀ b ∈ a.blocks, b.isLoopHeader = false) :
    (a.attemptReduceCfg.1 = 0 ↔ a.Reducible) ∧
      (a.attemptReduceCfg.1 = 0 → FlagsRight a a.attemptReduceCfg.2) := by
  have hpos : 0 < a.markBackedges.blocks.length := length_markBackedges.symm ▸ h.nonempty
  have hiff : a.attemptReduceCfg.1 = 0 ↔ a.Reducible := by
    rw [attemptReduceCfg]
    rcases search_from_entry (fun he => h.forward_lt he) hpos with ⟨hfail, x, hx, hcycle⟩ | ⟨hok, hno⟩
    · simp only [hfail, if_true, Nat.one_ne_zero, false_iff]
      exact fun hr => h.no_cycle_of_reducible hd hr (length_markBackedges ▸ hx) hcycle
    · simp only [hok, Bool.false_eq_true, if_false, true_iff]
      exact h.reducible_of_no_cycle hd hno
  exact ⟨hiff, fun h0 => h.flagsRight hd hfresh (hiff.mp h0)⟩

end

end Cfg

/-- Two blocks, with a loop around the second and one around both. -/
def nestedLoops : Cfg where
  blocks := linkBlocks
    [{ myIndex := 0, startIndex := 0, insnCount := 1, next := [1], idomPre := 1, idomPost := 4 },
      { myIndex := 1, startIndex := 1, insnCount := 1, next := [1, 0], idomPre := 2, idomPost := 3 }]

theorem nestedLoops_linked : nestedLoops.Linked := by
  refine Cfg.linked_of_linkBlocks (by decide) (by decide) fun b hb => ?_
  simp only [List.length_cons, List.length_nil] at hb
  interval_cases b
  · exact .refl
  · exact .single (by decide)

theorem nestedLoops_dominance : nestedLoops.DominanceCorrect := by
  intro b c hb hc
  replace hb : b < 2 := hb
  replace hc : c < 2 := hc
  interval_cases b <;> interval_cases c
  · exact iff_of_true (by decide) dominates_self
  · exact iff_of_true (by decide) root_dominates
  · refine iff_of_false (by decide) fun h => ?_
    exact absurd (h [0] (isPath_singleton 0)) (by decide)
  · exact iff_of_true (by decide) dominates_self

theorem nestedLoops_spec :
    (nestedLoops.attemptReduceCfg.1 = 0 ↔ nestedLoops.Reducible) ∧
      (nestedLoops.attemptReduceCfg.1 = 0 →
        Cfg.FlagsRight nestedLoops nestedLoops.attemptReduceCfg.2) :=
  nestedLoops_linked.attemptReduceCfg_spec nestedLoops_dominance (by decide)

end BJvm
