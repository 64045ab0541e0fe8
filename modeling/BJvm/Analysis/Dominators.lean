import BJvm.Analysis.Blocks

/-!
# The dominator tree

`compute_dominator_tree` of `analysis.c` and what it calls.  The scratch arrays of the C code are
functions on indices; a `-1` in one is `none`, as is the `INT_MAX` that a minimum starts from.
Recursions and loops take fuel, which the block count bounds.
-/

namespace BJvm

open Function (update)

/-- What `get_dfs_tree` writes. -/
structure DfsTree where
  /-- block # -> pre-order # -/
  blockToPre : Nat → Option Nat := fun _ => none
  /-- pre-order # -> block # -/
  preToBlock : Nat → Nat := fun _ => 0
  parent : Nat → Nat := fun _ => 0
  preorderClock : Nat := 0
  postorderClock : Nat := 0
  dfsPost : Nat → Nat := fun _ => 0

/-- The entry of `get_dfs_tree`: block `b` takes the next preorder number. -/
def DfsTree.enter (t : DfsTree) (b : Nat) : DfsTree :=
  { t with
    preToBlock := update t.preToBlock t.preorderClock b
    blockToPre := update t.blockToPre b (some t.preorderClock)
    preorderClock := t.preorderClock + 1 }

/-- The exit of `get_dfs_tree`. -/
def DfsTree.leave (t : DfsTree) (b : Nat) : DfsTree :=
  { t with
    dfsPost := update t.dfsPost b t.postorderClock
    postorderClock := t.postorderClock + 1 }

def DfsTree.setParent (t : DfsTree) (c b : Nat) : DfsTree :=
  { t with parent := update t.parent c b }

def getDfsTree (next : Nat → List Nat) : Nat → Nat → DfsTree → DfsTree
  | 0, _, t => t
  | fuel + 1, b, t =>
    ((next b).foldl (fun t c =>
      if t.blockToPre c = none then getDfsTree next fuel c (t.setParent c b) else t)
      (t.enter b)).leave b

/-- The union-find lookup with path compression: the root of `x`, and the forest it leaves. -/
def findRoot : Nat → (Nat → Nat) → Nat → (Nat → Nat) × Nat
  | 0, F, root => (F, root)
  | fuel + 1, F, root =>
    if F root ≠ root then findRoot fuel (update F root (F (F root))) (F (F root)) else (F, root)

/-- `if (x < sd) sd = x`. -/
def lower (sd : Option Nat) (x : Nat) : Option Nat :=
  match sd with
  | none => some x
  | some y => some (if x < y then x else y)

section

variable (pre : Nat → Nat) (parent : Nat → Nat)

/-- The walk from `prev` to `root` that updates `sd`. -/
def walkToRoot (semidom : Nat → Nat) (root : Nat) : Nat → Nat → Option Nat → Option Nat
  | 0, _, sd => sd
  | fuel + 1, prev, sd =>
    let sd := lower sd (pre (semidom prev))
    if parent prev ≠ root then walkToRoot semidom root fuel (parent prev) sd else sd

/-- One predecessor of block `i` in the semidominator loop. -/
def scanPred (fuel i : Nat) (semidom : Nat → Nat) (st : (Nat → Nat) × Option Nat) (prev : Nat) :
    (Nat → Nat) × Option Nat :=
  if prev = i then st
  else if pre prev < pre i then (st.1, lower st.2 (pre prev))
  else
    let (F, root) := findRoot fuel st.1 prev
    (F, walkToRoot pre parent semidom root fuel prev st.2)

/-- The arrays the semidominator loop updates. -/
structure SemidomState where
  F : Nat → Nat := id
  semidom : Nat → Nat := fun _ => 0
  idominates : Nat → List Nat := fun _ => []

/-- The semidominator loop at the block with preorder number `p`. -/
def semidomStep (fuel : Nat) (prev : Nat → List Nat) (preToBlock : Nat → Nat) (s : SemidomState)
    (p : Nat) : SemidomState :=
  let i := preToBlock p
  let (F, sd) := (prev i).foldl (scanPred pre parent fuel i s.semidom) (s.F, none)
  let s' := preToBlock (sd.getD 0)
  { F := update F i (parent i)
    semidom := update s.semidom i s'
    idominates := update s.idominates s' (s.idominates s' ++ [i]) }

/-- The walk from `w` to `i` of the relative dominator loop. -/
def walkReldom (i w : Nat) : Nat → Nat → Option Nat → (Nat → Nat) → Nat → Nat
  | 0, _, _, reldom => reldom
  | fuel + 1, walk, min, reldom =>
    if walk = i then reldom
    else if min.all (pre walk < ·) then
      walkReldom i w fuel (parent walk) (some (pre walk)) (update reldom w walk)
    else walkReldom i w fuel (parent walk) min reldom

def reldomLoop (n : Nat) (idominates : Nat → List Nat) : Nat → Nat :=
  (List.range' 1 (n - 1)).foldl (fun reldom i =>
    (idominates i).foldl (fun reldom w => walkReldom pre parent i w n w none reldom) reldom)
    fun _ => 0

end

/-- The last loop: the immediate dominators, and the blocks that each block dominates so. -/
def idomStep (preToBlock semidom reldom : Nat → Nat) (s : (Nat → Nat) × (Nat → List Nat))
    (p : Nat) : (Nat → Nat) × (Nat → List Nat) :=
  let i := preToBlock p
  let d := if i = reldom i then semidom i else s.1 (reldom i)
  (update s.1 i d, update s.2 d (s.2 d ++ [i]))

/-- What `idom_dfs` writes. -/
structure IdomDfs where
  visited : Nat → Bool := fun _ => false
  clock : Nat := 1
  idomPre : Nat → Nat := fun _ => 0
  idomPost : Nat → Nat := fun _ => 0

def IdomDfs.enter (t : IdomDfs) (b : Nat) : IdomDfs :=
  { t with
    idomPre := update t.idomPre b t.clock
    clock := t.clock + 1
    visited := update t.visited b true }

def IdomDfs.leave (t : IdomDfs) (b : Nat) : IdomDfs :=
  { t with idomPost := update t.idomPost b t.clock, clock := t.clock + 1 }

def idomDfs (idominates : Nat → List Nat) : Nat → Nat → IdomDfs → IdomDfs
  | 0, _, t => t
  | fuel + 1, b, t =>
    ((idominates b).foldl (fun t c => if t.visited c then t else idomDfs idominates fuel c t)
      (t.enter b)).leave b

namespace Cfg

variable (a : Cfg)

def next (b : Nat) : List Nat := (a.blocks.getD b default).next

def prev (b : Nat) : List Nat := (a.blocks.getD b default).prev

/-- The DFS tree from the entry block. -/
def dfsTree : DfsTree := getDfsTree a.next (a.blocks.length + 1) 0 {}

def pre (b : Nat) : Nat := (a.dfsTree.blockToPre b).getD 0

def semidomState : SemidomState :=
  (List.range' 1 (a.blocks.length - 1)).reverse.foldl
    (semidomStep a.pre a.dfsTree.parent a.blocks.length a.prev a.dfsTree.preToBlock) {}

def reldom : Nat → Nat :=
  reldomLoop a.pre a.dfsTree.parent a.blocks.length a.semidomState.idominates

def idomState : (Nat → Nat) × (Nat → List Nat) :=
  (List.range' 1 (a.blocks.length - 1)).foldl
    (idomStep a.dfsTree.preToBlock a.semidomState.semidom a.reldom) (fun _ => 0, fun _ => [])

def idomTree : IdomDfs := idomDfs a.idomState.2 (a.blocks.length + 1) 0 {}

/-- `compute_dominator_tree`. -/
def computeDominatorTree : Cfg :=
  if a.dominatorTreeComputed then a
  else
    { blocks := a.blocks.zipIdx.map fun p =>
        { p.1 with
          dfsPre := a.pre p.2
          dfsPost := a.dfsTree.dfsPost p.2
          idom := a.idomState.1 p.2
          idominates := a.idomState.2 p.2
          idomPre := a.idomTree.idomPre p.2
          idomPost := a.idomTree.idomPost p.2 }
      dominatorTreeComputed := true }

end Cfg

/-- `query_dominance`. -/
def queryDominance (dominator dominated : BasicBlock) : Bool :=
  dominator.idomPre ≤ dominated.idomPre && dominated.idomPost ≤ dominator.idomPost

/-- The blocks of a control-flow graph given by its successor lists. -/
def Cfg.ofSuccessors (next : List (List Nat)) : Cfg :=
  { blocks := linkBlocks (next.map fun l =>
      { myIndex := 0, startIndex := 0, insnCount := 0, next := l, nothrowAccessible := true }) }

end BJvm
