import Josh.Opt.Step

/-! The optimizer's entry points, `josh-filter/src/opt/mod.rs`, with `flatten` and `simplify` of
`flatten.rs` and `simplify.rs`: flatten once, then simplify and `iterate` the rules of `step`
until simplifying no longer changes the result. `flatten` and `simplify` run again on what they
changed, and the outer loop runs until it settles, so all of them run on fuel. The memos
(`FLATTENED`, `SIMPLIFIED`, `OPTIMIZED`, `MINIMIZED`) only replay results of these functions. -/

namespace Josh

/-- A compose's members in place of the compose, as the loops over composes splice them. -/
def Op.spliceCompose : Op → List Op
  | .compose nested => nested
  | f => [f]

/-- The first `Compose` among a chain's filters: its index and members. -/
def firstCompose (filters : List Op) : Option (Nat × List Op) :=
  filters.zipIdx.findSome? fun (f, i) =>
    match f with
    | .compose members => some (i, members)
    | _ => none

/-- The distribution of a chain over its first `Compose` in `flatten`: a compose of copies of the
chain, one for each of the compose's members in its place. It is made only when every other
filter of the chain inverts and every filter after the compose distributes over compose, and for
a compose at the end of a longer chain only when flattening fully. -/
def distribute (full : Bool) (flattened : List Op) : Option Op :=
  match firstCompose flattened with
  | none => none
  | some (i, members) =>
    let othersInvertible := flattened.zipIdx.all fun (f, j) => j = i || (invert f).isOk
    let suffixDistributes := allDistribute (flattened.drop (i + 1))
    if !othersInvertible || !suffixDistributes then none
    else if !full && flattened.length > 1 && i = flattened.length - 1 then none
    else some (.compose (members.map fun m => .chain (flattened.set i m)))

/-- `flatten_impl`: nested composes and chains spliced into their parents, and chains distributed
over their composes. A changed result is flattened again; a distributed one is returned as it
is. -/
def flattenImpl (full : Bool) : Nat → Op → Option Op
  | 0, _ => none
  | n + 1, filter =>
    let recur := flattenImpl full n
    let settle (result : Op) : Option Op := if result = filter then some result else recur result
    match filter with
    | .compose filters => do
      let out ← (filters.flatMap Op.spliceCompose).mapM recur
      settle (.compose out)
    | .chain filters =>
      let flattened := filters.flatMap Op.splice
      match distribute full flattened with
      | some distributed => some distributed
      | none => do
        let out ← flattened.mapM recur
        settle (.chain out)
    | .subtract a b => do
      let a ← recur a
      let b ← recur b
      settle (.subtract a b)
    | .exclude b => do settle (.exclude (← recur b))
    | .select b => do settle (.select (← recur b))
    | .pin b => do settle (.pin (← recur b))
    | .starlark path sub => do settle (.starlark path (← recur sub))
    | .treeId path sub => do settle (.treeId path (← recur sub))
    | _ => settle filter

/-- `flatten`. -/
def flatten (fuel : Nat) (filter : Op) : Option Op := flattenImpl false fuel filter

/-- `flatten_full`: also distributes a chain over a compose at its end. -/
def flattenFull (fuel : Nat) (filter : Op) : Option Op := flattenImpl true fuel filter

/-- The pass of `simplify` over a chain's simplified filters: two adjacent `Prefix`es become one,
and so do two adjacent `Subdir`s. -/
def mergePairs : List Op → List Op
  | .prefixDir x :: .prefixDir y :: rest => .prefixDir (y ++ x) :: mergePairs rest
  | .subdir x :: .subdir y :: rest => .subdir (x ++ y) :: mergePairs rest
  | f :: rest => f :: mergePairs rest
  | [] => []

/-- `simplify`: nested composes and chains spliced, and adjacent path ops merged; a changed result
is simplified again. -/
def simplify : Nat → Op → Option Op
  | 0, _ => none
  | n + 1, filter =>
    let recur := simplify n
    let settle (result : Op) : Option Op := if result = filter then some result else recur result
    match filter with
    | .compose filters => do
      let out ← (filters.flatMap Op.spliceCompose).mapM recur
      settle (.compose out)
    | .chain filters => do
      let simplified ← (filters.flatMap Op.splice).mapM recur
      let result := mergePairs simplified
      settle (match result with
        | [f] => f
        | _ => .chain result)
    | .subtract a b => do
      let a ← recur a
      let b ← recur b
      settle (.subtract a b)
    | .exclude b => do settle (.exclude (← recur b))
    | .select b => do settle (.select (← recur b))
    | .pin b => do settle (.pin (← recur b))
    | .starlark path sub => do settle (.starlark path (← recur sub))
    | .treeId path sub => do settle (.treeId path (← recur sub))
    | _ => settle filter

/-- `iterate`: `step` until it changes nothing, for at most a thousand rounds. -/
def iterate (fuel : Nat) (filter : Op) : Option Op := rounds 1000 filter
where
  rounds : Nat → Op → Option Op
    | 0, filter => some filter
    | k + 1, filter => do
      let optimized ← step fuel filter
      if filter = optimized then some filter else rounds k optimized

/-- `optimize_impl`: flatten, then simplify and iterate until simplifying the iterated filter gives
what simplifying the filter gave, and iterate once more. -/
def optimizeImpl (minimize : Bool) (fuel : Nat) (filter : Op) : Option Op := do
  let filter ← flattenImpl minimize fuel filter
  settle fuel filter
where
  settle : Nat → Op → Option Op
    | 0, _ => none
    | k + 1, filter => do
      let pretty ← simplify fuel filter
      let optimized ← iterate fuel filter
      let filter ← simplify fuel optimized
      if filter = pretty then iterate fuel filter else settle k filter

/-- `optimize`. -/
def optimize (fuel : Nat) (filter : Op) : Option Op := optimizeImpl false fuel filter

/-- `minimize`: `optimize` with `flatten_full`. -/
def minimize (fuel : Nat) (filter : Op) : Option Op := optimizeImpl true fuel filter

end Josh
