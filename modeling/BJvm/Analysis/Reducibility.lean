import BJvm.Analysis.Dominators

/-!
# Back edges and reducibility

`attempt_reduce_cfg` of `analysis.c`.
-/

namespace BJvm

open Function (update)

namespace Cfg

variable (a : Cfg)

def block (b : Nat) : BasicBlock := a.blocks.getD b default

/-- The flags that the first loop of `attempt_reduce_cfg` writes. -/
structure EdgeFlags where
  isBackedge : Nat → List Bool
  isLoopHeader : Nat → Bool

/-- The body of that loop, for one edge of block `i`. -/
def markEdge (i : Nat) (f : EdgeFlags) (next : Nat) : EdgeFlags :=
  let backedge := queryDominance (a.block next) (a.block i)
  { isBackedge := update f.isBackedge i (f.isBackedge i ++ [backedge])
    isLoopHeader := update f.isLoopHeader next (f.isLoopHeader next || backedge) }

def edgeFlags : EdgeFlags :=
  (List.range a.blocks.length).foldl (fun f i => (a.next i).foldl (a.markEdge i) f)
    { isBackedge := fun _ => []
      isLoopHeader := fun b => (a.block b).isLoopHeader }

def markBackedges : Cfg :=
  { a with
    blocks := a.blocks.zipIdx.map fun p =>
      { p.1 with
        isBackedge := a.edgeFlags.isBackedge p.2
        isLoopHeader := a.edgeFlags.isLoopHeader p.2 } }

/-- The loop body of `forward_edges_form_a_cycle`, for a successor with its flag. -/
def searchEdge (search : Nat → (Nat → Nat) → Bool × (Nat → Nat)) (st : Bool × (Nat → Nat))
    (edge : Nat × Bool) : Bool × (Nat → Nat) :=
  if st.1 || edge.2 then st
  else if st.2 edge.1 = 0 then search edge.1 st.2
  else if st.2 edge.1 = 1 then (true, st.2)
  else st

/-- `forward_edges_form_a_cycle`: the answer, and `visited`. -/
def forwardEdgesFormACycle : Nat → Nat → (Nat → Nat) → Bool × (Nat → Nat)
  | 0, _, visited => (true, visited)
  | fuel + 1, i, visited =>
    let b := a.block i
    let st := (b.next.zip b.isBackedge).foldl (searchEdge (forwardEdgesFormACycle fuel))
      (false, update visited i 1)
    if st.1 then st else (false, update st.2 i 2)

/-- `attempt_reduce_cfg`: 0 for success, and the graph with the flags. -/
def attemptReduceCfg : Nat × Cfg :=
  let a := a.markBackedges
  let fail := (a.forwardEdgesFormACycle (a.blocks.length + 1) 0 fun _ => 0).1
  (if fail then 1 else 0, a)

end Cfg

end BJvm
