import Josh.Apply

/-! `unapply` of `josh-core/src/filter/mod.rs`: put a changed filtered tree back into the tree
it was filtered from. An invertible filter maps the new tree back and overlays it on what of
the parent tree the filter does not see; a chain of filters that is not is undone filter by
filter, from the last. Called without commits, as tree-only callers do; the per-commit
reversal of `:workspace`, `:stored`, `:starlark`, `:rev` and `:hook` is delegated. -/

namespace Josh

structure UnapplyEnv extends ApplyEnv where
  /-- `unapply_per_rev_filter` on the peeled op: `none` for every op it does not handle. -/
  perRev : Op → Obj → Obj → Except String (Option Obj)

/-- `is_commit_resolved_filter`. -/
def isCommitResolved : Op → Bool
  | .rev _ | .hook _ => true
  | _ => false

/-- The invertible case of `unapply`: strip from the parent what the filter sees of it, and
overlay the new tree mapped back. -/
def unapplyInverted (env : UnapplyEnv) (inverted : Op) (tree parent : Obj) :
    Except String Obj := do
  let filtered ← apply env.toApplyEnv (← invert inverted) (.fromTree parent)
  let matching ← apply env.toApplyEnv inverted filtered
  let stripped := subtract parent matching.tree
  let x ← apply env.toApplyEnv inverted (.fromTree tree)
  .ok (overlay x.tree stripped)

mutual
/-- `unapply` with `commits = None`. -/
def unapply (env : UnapplyEnv) : Op → Obj → Obj → Except String Obj
  | filter, tree, parent =>
    match invert filter with
    | .ok inverted => unapplyInverted env inverted tree parent
    | .error _ => unapplyPeeled env filter tree parent
/-- `unapply` past a failed `invert`, on the op below its `Meta` wrappers. -/
def unapplyPeeled (env : UnapplyEnv) : Op → Obj → Obj → Except String Obj
  | .«meta» _ f, tree, parent => unapplyPeeled env f tree parent
  | filter, tree, parent => do
    match ← env.perRev filter tree parent with
    | some result => .ok result
    | none =>
      match filter with
      | .chain filters => unapplyChain env filters tree parent
      | _ => .error "filter cannot be unapplied"
/-- A chain split into its first filter and the rest: undo the rest against the parent as the
first filter shows it, then undo the first. -/
def unapplyChain (env : UnapplyEnv) : List Op → Obj → Obj → Except String Obj
  | [], tree, _ => .ok tree
  | [first], tree, parent => unapply env first tree parent
  | first :: second :: more, tree, parent => do
    let filteredParent ←
      if isCommitResolved (peelOp first) then
        .error "cannot reverse a per-commit filter (`:rev`/`:hook`) without commit context"
      else do
        let firstNormalized ← match invert first with
          | .ok firstInverted => invert firstInverted
          | .error _ => .ok first
        .ok (← apply env.toApplyEnv firstNormalized (.fromTree parent)).tree
    -- `unapply` of the rest as one chain filter
    let inner ← match invert (.chain (second :: more)) with
      | .ok inverted => unapplyInverted env inverted tree filteredParent
      | .error _ => do
        match ← env.perRev (.chain (second :: more)) tree filteredParent with
        | some result => .ok result
        | none => unapplyChain env (second :: more) tree filteredParent
    unapply env first inner parent
end

end Josh
