import Josh.Invert
import Mathlib.Data.List.Destutter

/-! The structural helpers of the optimizer, `josh-filter/src/opt/structure.rs`: the last filter
of a chain, the common first and last filters of a compose's members, the grouping of members,
and the classifications of filters that `step` and `flatten` consult. -/

namespace Josh

/-- `is_prefix`. -/
def Op.isPrefix : Op → Bool
  | .prefixDir _ => true
  | _ => false

/-- A `Message` op, which `common_post` lets through and `step` subtracts from itself. -/
def Op.isMessage : Op → Bool
  | .message .. => true
  | _ => false

/-- `is_generative`: `Insert` and `TreeId` make their output out of nothing. -/
def Op.isGenerative : Op → Bool
  | .insert .. | .treeId .. => true
  | _ => false

mutual
/-- `last_chain`: the last filter of a chain, through nested chains, and the chain of all
before it, nested as the source builds it. -/
def lastChain (rest : Op) : Op → Op × Op
  | .chain filters => lastChainList rest [] filters
  | filter => (rest, filter)
/-- `last_chain` on the filters of a chain, those already passed kept in `pre`. -/
def lastChainList (rest : Op) (pre : List Op) : List Op → Op × Op
  | [] => (rest, .chain [])
  | [last] => lastChain (.chain (rest :: pre)) last
  | f :: more => lastChainList rest (pre ++ [f]) more
end

mutual
/-- `resurrects_from_empty`: whether applying the filter to the empty tree can give a non-empty
one. -/
def resurrectsFromEmpty : Op → Bool
  | .insert .. | .treeId .. => true
  | .chain filters | .compose filters => anyResurrects filters
  | .subtract a _ => resurrectsFromEmpty a
  | _ => false
/-- `filters.iter().any(resurrects_from_empty)`. -/
def anyResurrects : List Op → Bool
  | [] => false
  | f :: fs => resurrectsFromEmpty f || anyResurrects fs
end

mutual
/-- `distributes_over_compose`: the pure relocations, which commute with `tree::compose`. -/
def distributesOverCompose : Op → Bool
  | .nop | .empty | .prefixDir _ | .subdir _ => true
  | .chain filters | .compose filters => allDistribute filters
  | _ => false
/-- `filters.iter().all(distributes_over_compose)`. -/
def allDistribute : List Op → Bool
  | [] => true
  | f :: fs => distributesOverCompose f && allDistribute fs
end

/-- One member into the grouping of `group`: it joins the last group when `joins` holds between
that group's first member and it. -/
def groupStep (joins : Op → Op → Bool) : List (List Op) → Op → List (List Op)
  | (first :: more) :: groups, f =>
    if joins first f then (first :: more ++ [f]) :: groups
    else [f] :: (first :: more) :: groups
  | groups, f => [f] :: groups

/-- The runs of members that `joins` the first of their run, in order. -/
def groupRuns (joins : Op → Op → Bool) (filters : List Op) : List (List Op) :=
  (filters.foldl (groupStep joins) []).reverse

/-- Two non-empty chains that start with one filter. -/
def sameFirst : Op → Op → Bool
  | .chain (x :: _), .chain (y :: _) => x = y
  | _, _ => false

/-- Two filters whose chains end with one filter. -/
def sameLast (a f : Op) : Bool := (lastChain .nop f).2 = (lastChain .nop a).2

/-- `group`: runs of chains with a common first filter; if no two members share one, runs of
members with a common last filter. -/
def group (filters : List Op) : List (List Op) :=
  let res := groupRuns sameFirst filters
  if res.length ≠ filters.length then res else groupRuns sameLast filters

/-- One member into the scan of `common_pre`: the first filter seen so far and the rests. -/
def commonPreStep : Option Op × List Op → Op → Option (Option Op × List Op)
  | (c, rest), .chain (first :: more) =>
    let restChain := if more = [] then Op.nop else .chain more
    match c with
    | none => some (some first, rest ++ [restChain])
    | some c => if c = first then some (some c, rest ++ [restChain]) else none
  | _, _ => none

/-- `common_pre`: the first filter all members' chains share, with what follows it in each,
unless it is generative. -/
def commonPre (filters : List Op) : Option (Op × List Op) := do
  let (c, rest) ← filters.foldlM commonPreStep (none, [])
  let c ← c
  if c.isGenerative then none else some (c, rest)

/-- One member into the scan of `common_post`: the last filter seen so far and the rests. -/
def commonPostStep : Option Op × List Op → Op → Option (Option Op × List Op)
  | (cp, rest), f =>
    let (a, b) := lastChain .nop f
    let cp := cp.getD b
    if cp = b then some (some cp, rest ++ [a]) else none

/-- `common_post`: the last filter all members' chains share, with what comes before it in
each, when it is its own inverse, a `Prefix` or a `Message`. -/
def commonPost (filters : List Op) : Option (Op × List Op) := do
  let (cp, rest) ← filters.foldlM commonPostStep (none, [])
  let c ← cp
  if invert c = .ok c then some (c, rest)
  else if c.isPrefix then some (c, rest)
  else if c.isMessage then some (c, rest)
  else none

end Josh
