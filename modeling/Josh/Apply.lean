import Josh.Invert
import Josh.Tree

/-! `apply_impl` of `josh-core/src/filter/mod.rs`, the tree interpreter of filters, with
`tree::compose`. The branches that read blobs as text, run templates or scripts, or search
the object database beyond the trees given are the fields of an `ApplyEnv`. The recursion
runs on fuel, and `apply` gives it the nesting depth of the filter. -/

namespace Josh

/-- `git2::Oid::ZERO_SHA1`. -/
def zeroOid : Oid := 0

/-- `SigRewrite`. -/
inductive SigRewrite where
  | nameEmail : String → String → SigRewrite
  | raw : String → SigRewrite
  deriving DecidableEq, Repr

/-- `Rewrite`: the tree a filter produces, with the commit it came from and the overrides of
the commit's metadata. -/
structure Rewrite where
  tree : Obj
  commit : Oid
  author : Option SigRewrite
  committer : Option SigRewrite
  message : Option String
  deriving DecidableEq, Repr

namespace Rewrite

def fromTree (tree : Obj) : Rewrite := ⟨tree, zeroOid, none, none, none⟩

def withTree (x : Rewrite) (tree : Obj) : Rewrite := { x with tree }

def withAuthor (x : Rewrite) (name email : String) : Rewrite :=
  { x with author := some (.nameEmail name email) }

def withCommitter (x : Rewrite) (name email : String) : Rewrite :=
  { x with committer := some (.nameEmail name email) }

def withMessage (x : Rewrite) (message : String) : Rewrite := { x with message }

@[simp] theorem tree_withTree (x : Rewrite) (t : Obj) : (x.withTree t).tree = t := rfl

@[simp] theorem withTree_tree (x : Rewrite) : x.withTree x.tree = x := rfl

@[simp] theorem withTree_withTree (x : Rewrite) (a b : Obj) :
    (x.withTree a).withTree b = x.withTree b := rfl

@[simp] theorem fromTree_withTree (a b : Obj) : (fromTree a).withTree b = fromTree b := rfl

@[simp] theorem tree_fromTree (t : Obj) : (fromTree t).tree = t := rfl

end Rewrite

/-- What `apply_impl` delegates: message templates, adapters, links, regex and glob
rewriting, the paths and index trees, workspace files and scripts, object dereferencing,
nested `unapply`, reading objects by oid, and the hex ids of objects. -/
structure ApplyEnv where
  message : String → Regex → Rewrite → Except String String
  adapt : String → Obj → Except String Obj
  unlink : Obj → Except String Obj
  link : Option LinkMode → Obj → Except String Obj
  regexReplace : Regex → String → Obj → Except String Obj
  pattern : String → Obj → Except String Obj
  paths : Obj → Except String Obj
  index : Oid → Obj → Except String Obj
  invertPaths : Obj → Except String Obj
  workspace : Path → Rewrite → Except String Rewrite
  stored : Path → Rewrite → Except String Rewrite
  starlark : Path → Op → Rewrite → Except String Rewrite
  objectDeref : Path → Rewrite → Except String Rewrite
  unapply : LazyRef → Op → Obj → Except String Rewrite
  lookup : Oid → Option Obj
  oidHex : Obj → String

/-- The bytes of a blob written from text. -/
def textBlob (s : String) : Obj := .blob s.toUTF8.toList

/-- `tree::compose`: each filter's output, less what an earlier filter already took from the
input (the earlier inputs `taken`, mapped forward by this filter), over the outputs so far.
The filter is normalised by a double `invert` before it is used to map `taken`. -/
def compose (apply : Op → Obj → Except String Obj) :
    List (Op × Obj) → Obj → Obj → Except String Obj
  | [], _, result => .ok result
  | (f, applied) :: rest, taken, result => do
    let f ← invert (← invert f)
    let takenApplied ← apply f taken
    let subtracted := subtract applied takenApplied
    let unapplied ← apply (← invert f) applied
    compose apply rest (overlay taken unapplied) (overlay subtracted result)

/-- The nesting depth of a filter as `apply_impl` recurses into it: enough fuel for every
recursive application, since `invert` never deepens a filter. -/
def Op.depth : Op → Nat
  | .«meta» _ f => f.depth
  | .treeId _ f => f.depth + 2
  | .compose fs => depthList fs + 1
  | .chain fs => depthList fs + 1
  | .subtract a b => max a.depth b.depth + 1
  | .exclude f => f.depth + 1
  | .select f => f.depth + 1
  | _ => 1
where
  depthList : List Op → Nat
    | [] => 0
    | f :: fs => max f.depth (depthList fs)

/-- `apply_impl` with fuel; running out of it is an error. -/
def applyImpl (env : ApplyEnv) : Nat → Op → Rewrite → Except String Rewrite
  | 0, _, _ => .error "apply: out of fuel"
  | n + 1, filter, x =>
    match peelOp filter with
    | .nop => .ok x
    | .empty => .ok (x.withTree emptyId)
    | .fold => .ok x
    | .squash none => .ok x
    | .author name email => .ok (x.withAuthor name email)
    | .committer name email => .ok (x.withCommitter name email)
    | .squash (some _) => .error "not applicable to tree: squash"
    | .message m r =>
      -- without a commit or a message there is nothing to rewrite
      if x.commit = zeroOid ∧ x.message = none then .ok x
      else do .ok (x.withMessage (← env.message m r x))
    | .prune => .ok x
    | .adapt adapter => do .ok (x.withTree (← env.adapt adapter x.tree))
    | .«export» => do .ok (x.withTree (← insertOid x.tree [".link.josh"] none .blob))
    | .unlink => do .ok (x.withTree (← env.unlink x.tree))
    | .link mode => do .ok (x.withTree (← env.link mode x.tree))
    | .rev _ => .error "not applicable to tree: rev"
    | .regexReplace replacements => do
      let t ← replacements.foldlM (fun t (regex, replacement) => env.regexReplace regex replacement t)
        x.tree
      .ok (x.withTree t)
    | .pattern glob => do
      let t ← env.pattern glob x.tree
      .ok (if t = x.tree then x else x.withTree t)
    | .insert dest content => do
      let (oid, mode, isTree) ← match content with
        | .inline s => .ok (textBlob s, Mode.blob, false)
        | .oid oid =>
          match env.lookup oid with
          | some (.blob d) => .ok (.blob d, Mode.blob, false)
          | some (.tree es) => .ok (.tree es, Mode.tree, true)
          | none => .error ("insert: " ++ toString oid ++ " is neither a blob nor a tree")
      -- `:$.=<oid>` replaces the whole tree, and only by a tree
      if dest = [] then
        if isTree then .ok (x.withTree oid)
        else .error "insert: a blob cannot be placed at the tree root"
      else do .ok (x.withTree (← insertOid emptyId dest (some oid) mode))
    | .file dest src => do
      let (file, mode) := match getPathEntry x.tree src with
        | some e => (some e.2.2, e.2.1)
        | none => (none, Mode.blob)
      .ok (x.withTree (← insertOid emptyId dest file mode))
    | .subdir path =>
      -- a missing path or a non-tree entry has no subtree
      let subtree := match getPathEntry x.tree path with
        | some e => if e.2.1.isTree then e.2.2 else emptyId
        | none => emptyId
      .ok (x.withTree subtree)
    | .prefixDir path => do .ok (x.withTree (← insertOid emptyId path (some x.tree) .tree))
    | .subtract a b => do
      let af ← applyImpl env n a x
      let bf ← applyImpl env n b x
      let bu ← applyImpl env n (← invert b) bf
      let ba ← applyImpl env n a bu
      .ok (x.withTree (subtract af.tree ba.tree))
    | .exclude b => do
      let bf ← applyImpl env n b x
      .ok (x.withTree (subtract x.tree bf.tree))
    | .select b => do
      let bf ← applyImpl env n b x
      .ok (x.withTree (intersect x.tree bf.tree))
    | .paths => do .ok (x.withTree (← env.paths x.tree))
    | .index => do .ok (x.withTree (← env.index x.commit x.tree))
    | .invert => do .ok (x.withTree (← env.invertPaths x.tree))
    | .workspace path => env.workspace path x
    | .stored path => env.stored path x
    | .starlark path sub => env.starlark path sub x
    | .treeId path sub => do
      let applied ← applyImpl env n sub x
      applyImpl env n (.insert path (.inline (env.oidHex applied.tree))) x
    | .objectRef path =>
      match getPathEntry x.tree path with
      | some e => do
        .ok (x.withTree (← insertOid emptyId path (some (textBlob (env.oidHex e.2.2))) .blob))
      | none => .ok x
    | .objectDeref path => env.objectDeref path x
    | .compose filters => do
      let filtered ← filters.mapM (fun f => applyImpl env n f x)
      let t ← compose (fun f t => (applyImpl env n f (Rewrite.fromTree t)).map Rewrite.tree)
        (filters.zip (filtered.map Rewrite.tree)) emptyId emptyId
      .ok (x.withTree t)
    | .chain filters => filters.foldlM (fun r f => applyImpl env n f r) x
    | .hook _ => .error "not applicable to tree: hook"
    | .embed _ => .error "not applicable to tree: embed"
    | .unapply target uf => env.unapply target uf x.tree
    | .pin _ => .ok x
    | .downstack _ => .error "not applicable to tree: downstack"
    | .«meta» _ _ => .error "unreachable"

/-- `Meta` wrappers are peeled before `apply_impl` looks at the op. -/
theorem applyImpl_meta (env : ApplyEnv) (n : Nat) (m : List (String × String)) (f : Op)
    (x : Rewrite) : applyImpl env n (.«meta» m f) x = applyImpl env n f x := by
  cases n with
  | zero => rfl
  | succ n => rfl

/-- `apply`. -/
def apply (env : ApplyEnv) (filter : Op) (x : Rewrite) : Except String Rewrite :=
  applyImpl env filter.depth filter x

end Josh
