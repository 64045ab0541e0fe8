import BJvm.Jit.DumbJit

/-!
# What a structured expression means

Where control goes in an expression of (block)s and (loop)s: a branch to a (block) goes on behind it,
a branch to a (loop) to its start, and what falls off the end of either goes on behind it.
-/

namespace BJvm.DumbJit

/-- An expression with the contents of its (block)s and (loop)s in place. -/
inductive Structured
  | basicBlock (index : Nat) (building : List Expression)
  | block (label : Nat) (isLoop : Bool) (body : List Structured)
  | other

mutual

/-- The basic blocks whose code occurs, in order. -/
def Structured.basicBlocks : Structured → List Nat
  | .basicBlock index _ => [index]
  | .block _ _ body => basicBlocksIn body
  | .other => []

def basicBlocksIn : List Structured → List Nat
  | [] => []
  | e :: es => e.basicBlocks ++ basicBlocksIn es

end

mutual

def Structured.labels : Structured → List Nat
  | .block label _ body => label :: labelsIn body
  | _ => []

def labelsIn : List Structured → List Nat
  | [] => []
  | e :: es => e.labels ++ labelsIn es

end

mutual

/-- The basic block that control comes to first, if `k` is that behind the expression; `none` is the
end of the function. -/
def Structured.first : Structured → Option Nat → Option Nat
  | .basicBlock index _, _ => some index
  | .block _ _ body, k => firstIn body k
  | .other, k => k

def firstIn : List Structured → Option Nat → Option Nat
  | [], k => k
  | e :: es, k => e.first (firstIn es k)

end

/-- Where the code of a basic block can pass control, when `k` is behind it and branches land as in
`env`; `none` for a branch to a (block) or (loop) that is not around it. -/
def landings (env : List (Nat × Option Nat)) (k : Option Nat) :
    List Expression → List (Option (Option Nat))
  | [] => [some k]
  | .br true label :: es => env.lookup label :: landings env k es
  | .br false label :: _ => [env.lookup label]
  | .return_ :: _ => []
  | _ :: es => landings env k es

mutual

/-- The basic blocks with where they pass control. -/
def Structured.transfers (env : List (Nat × Option Nat)) (k : Option Nat) :
    Structured → List (Nat × List (Option (Option Nat)))
  | .basicBlock index building => [(index, landings env k building)]
  | .block label isLoop body =>
    transfersIn ((label, if isLoop then firstIn body k else k) :: env) k body
  | .other => []

def transfersIn (env : List (Nat × Option Nat)) (k : Option Nat) :
    List Structured → List (Nat × List (Option (Option Nat)))
  | [] => []
  | e :: es => e.transfers env (firstIn es k) ++ transfersIn env k es

end

end BJvm.DumbJit
