import Josh.Opt.PrefixSort

/-! `step` of `josh-filter/src/opt/step.rs`: one round of the optimizer's rewrite rules, at the
top of a filter and, where no rule applies there, on its members. `step` runs again on filters
it has just built, so it runs on fuel; running out of it is `none`. The `OPTIMIZED` memo only
replays results of this function. -/

namespace Josh

/-- `Path::parent`: none for the empty path. -/
def Path.parent : Path → Option Path
  | [] => none
  | p => some p.dropLast

/-- `Path::file_name`: the last component. -/
def Path.fileName (p : Path) : Option String := p.getLast?

/-- A chain's filters in place of the chain, as the loops over chains splice them. -/
def Op.splice : Op → List Op
  | .chain nested => nested
  | f => [f]

/-- The members of a `Compose`, none for other filters. -/
def Op.composeMembers : Op → List Op
  | .compose fs => fs
  | _ => []

/-- `Compose(av)` with `x` among its members. -/
def Op.composeHas (f x : Op) : Bool :=
  match f with
  | .compose fs => decide (x ∈ fs)
  | _ => false

/-- `prefix_of`: the `Prefix` a filter's chain ends with, or `Nop`. -/
def prefixOf (op : Op) : Op :=
  let last := (lastChain .nop op).2
  if last.isPrefix then last else .nop

/-- Two non-empty chains with one first filter: that filter and the rests. -/
def commonFirst : Op → Op → Option (Op × List Op × List Op)
  | .chain (a :: as), .chain (b :: bs) => if a = b then some (a, as, bs) else none
  | _, _ => none

/-- `Select(F)` against `Exclude(F)`: the `F`. -/
def selectExclude : Op → Op → Option Op
  | .select sa, .exclude sb => if sa = sb then some sa else none
  | _, _ => none

/-- The rules for `Subtract(af, bf)`, in the order of their arms; `st` is `step` with less fuel. -/
def stepSubtract (st : Op → Option Op) (af bf : Op) : Option Op :=
  if af = bf then some .empty
  else if af = .empty then some .empty
  else if af.isMessage && bf.isMessage then some .empty
  else if bf = .nop then some .empty
  else if bf = .empty then some af
  else if let some sa := selectExclude af bf then some (.select sa)
  else if let some (common, as, bs) := commonFirst af bf then
    some (.chain [common, .subtract (.chain as) (.chain bs)])
  else if prefixOf bf ≠ .nop then some (.subtract af (lastChain .nop bf).1)
  else if prefixOf af ≠ .nop then
    some (.chain [.subtract (lastChain .nop af).1 bf, prefixOf af])
  else if bf.isPrefix then some (.subtract af .nop)
  else if let some (cp, rest) := (commonPost [af, bf]).filter (·.1 ≠ .nop) then
    some (.chain [.subtract (rest.getD 0 .nop) (rest.getD 1 .nop), cp])
  -- a member of the compose that is subtracted whole
  else if af.composeHas bf then st (.compose (af.composeMembers.filter (· ≠ bf)))
  else if bf.composeHas af then st .empty
  else
    match af, bf with
    | .compose av, .compose bv => do
      let a ← st (.compose (av.filter (· ∉ bv)))
      let b ← st (.compose (bv.filter (· ∉ av)))
      some (.subtract a b)
    | a, b => do
      let a ← st a
      let b ← st b
      some (.subtract a b)

/-- The `Compose` rule for two members or more. -/
def stepCompose (st : Op → Option Op) (filters : List Op) : Option Op :=
  let filters := (filters.destutter (· ≠ ·)).filter (· ≠ .empty)
  let grouped := group filters
  if let some (common, rest) := commonPre filters then some (.chain [common, .compose rest])
  else if let some (common, rest) := commonPost filters then some (.chain [.compose rest, common])
  else if grouped.length ≠ 1 ∧ grouped.length ≠ filters.length then
    some (.compose (grouped.map .compose))
  else do
    let members ← (prefixSort filters).mapM st
    some (.compose members)

/-- The scan of a chain's adjacent `Prefix`, `Subdir` pairs, each kept filter stepped: `some none`
when a pair empties the whole chain. -/
def stepChainPairs (st : Op → Option Op) : List Op → Option (Option (List Op))
  | .prefixDir a :: tail@(.subdir b :: rest) =>
    if a = b then stepChainPairs st rest
    -- `:prefix=a:/b` is empty, and so is the chain unless a later filter makes content
    else if a.length = b.length ∧ !anyResurrects rest then some none
    else do
      let f ← st (.prefixDir a)
      let kept ← stepChainPairs st tail
      some (kept.map (f :: ·))
  | f :: rest => do
    let g ← st f
    let kept ← stepChainPairs st rest
    some (kept.map (g :: ·))
  | [] => some (some [])

/-- The `Chain` rule: nested chains spliced, `Nop`s dropped, an `Empty` that nothing after it
undoes empties the chain, and adjacent `Prefix`, `Subdir` pairs cancel. -/
def stepChain (st : Op → Option Op) (filters : List Op) : Option Op := do
  let stepped ← filters.mapM st
  let flattened := (stepped.flatMap Op.splice).filter (· ≠ .nop)
  if flattened = [] then return .nop
  if let some pos := flattened.findIdx? (· = .empty) then
    if !anyResurrects (flattened.drop (pos + 1)) then return .empty
  match ← stepChainPairs st flattened with
  | none => some .empty
  | some [] => some .nop
  | some [f] => some f
  | some result => some (.chain result)

/-- `step`. -/
def step : Nat → Op → Option Op
  | 0, _ => none
  | n + 1, filter =>
    match filter with
    | .subdir [] => some .nop
    | .subdir path =>
      some (if path.length > 1 then .chain (path.map fun x => .subdir [x]) else .subdir path)
    | .prefixDir [] => some .nop
    | .prefixDir path =>
      some (if path.length > 1 then .chain (path.reverse.map fun x => .prefixDir [x])
        else .prefixDir path)
    | .insert dest content =>
      if dest.length > 1 then
        match dest.parent, dest.fileName with
        | some parent, some name => some (.chain [.insert [name] content, .prefixDir parent])
        | _, _ => some filter
      else some filter
    | .file dest source =>
      if source.length > 1 ∨ dest.length > 1 then
        match source.parent, source.fileName, dest.parent, dest.fileName with
        | some srcParent, some srcName, some dstParent, some dstName =>
          some (.chain [.subdir srcParent, .file [dstName] [srcName], .prefixDir dstParent])
        | _, _, _, _ => some filter
      else some filter
    | .rev filters => do
      let arms ← filters.mapM fun (m, i, f) => do
        let g ← step n f
        some (m, i, g)
      some (.rev arms)
    | .compose [] => some .empty
    | .compose [f] => some f
    | .compose filters => stepCompose (step n) filters
    | .chain filters => stepChain (step n) filters
    | .exclude b =>
      if b = .nop then some .empty
      else if b = .empty then some .nop
      else .exclude <$> step n b
    | .select b =>
      if b = .empty then some .empty
      else if b = .nop then some .nop
      else .select <$> step n b
    | .pin b => if b = .empty then some .nop else .pin <$> step n b
    | .starlark path sub => .starlark path <$> step n sub
    | .treeId path sub => .treeId path <$> step n sub
    | .subtract af bf => stepSubtract (step n) af bf
    | _ => some filter

end Josh
