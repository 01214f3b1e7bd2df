import Josh.Op
import Josh.Lib.Hex
import Mathlib.Data.List.Sort

/-! The persisted form of a filter, `InMemoryBuilder` of `josh-filter/src/persist.rs`: each op
is a tree with one entry named after its kind, holding its parameters as blobs named by their
index and its child filters as the trees of their own ops. An object is its content, so that
two objects are equal when their ids are. `build_op` without an object source gives the tree of
`Filter::id`; with one it gives the tree `as_tree` writes, where an inserted object is
referenced by an entry of its own kind. -/

namespace Josh

/-- An object of a persisted filter: a blob, a tree of named entries, or an object of the
repository that an entry references by its id, with whether it is a tree. -/
inductive PObj where
  | blob (content : String)
  | tree (entries : List (String × PObj))
  | object (oid : Oid) (isTree : Bool)
  deriving Repr

/-- The kinds of the objects of a repository. -/
inductive ObjKind where
  | blob | tree | commit | tag
  deriving DecidableEq, Repr

/-- `write_tree`: the entries in the order of their names' bytes, equal names in the order they
came in, as a stable sort leaves them. The order of UTF-8 bytes is the order of code points. -/
def writeTree (entries : List (String × PObj)) : PObj :=
  .tree (entries.insertionSort fun a b => a.1 ≤ b.1)

@[simp] theorem writeTree_singleton (name : String) (o : PObj) :
    writeTree [(name, o)] = .tree [(name, o)] := rfl

theorem writeTree_pair {a b : String} (x y : PObj) (h : a ≤ b) :
    writeTree [(a, x), (b, y)] = .tree [(a, x), (b, y)] := by
  simp [writeTree, h]

/-- `git2::Oid`'s text: forty lowercase hexadecimal digits. -/
def oidString (oid : Oid) : String := String.ofList (Nat.hexDigits 40 oid)

/-- `Display` of `LazyRef`: a resolved ref by its oid, a lazy one by its name in quotes. -/
def LazyRef.toString : LazyRef → String
  | .resolved id => oidString id
  | .lazy name => "\"" ++ name ++ "\""

/-- `Display` of `LinkMode`. -/
def LinkMode.toString : LinkMode → String
  | .embedded => "embedded"
  | .snapshot => "snapshot"
  | .pointer => "pointer"

/-- `to_string_lossy` of a path of normal components. -/
def Path.toStringLossy (p : Path) : String := "/".intercalate p

/-- `build_str_params`. -/
def buildStrParams (params : List String) : PObj :=
  writeTree (params.zipIdx.map fun (p, i) => (toString i, .blob p))

/-- The key blob of a `Rev` arm: the match operator before the ref, `_` alone for the default
arm, whose ref it leaves out. -/
def revKey (m : RevMatch) (r : LazyRef) : String :=
  match m with
  | .ancestorStrict => "<" ++ r.toString
  | .ancestorInclusive => "<=" ++ r.toString
  | .equal => "==" ++ r.toString
  | .default => "_"

/-- The tree of one ref and filter, in `Rev`, `Unapply` and `Squash`. -/
def refFilterTree (key : String) (filter : PObj) : PObj :=
  writeTree [("o", .blob key), ("f", filter)]

/-- The tree of an op with one entry. -/
def opTree (name : String) (params : PObj) : PObj := writeTree [(name, params)]

section Build

variable (src : Option (Oid → Option ObjKind))

/-- The parameters of an `Insert`: inline content as a string, an object by an entry of its
kind when the object source knows it, and by its id as a string without a source. -/
def buildInsertParams (path : Path) : InsertContent → Except String PObj
  | .inline s => .ok (buildStrParams [path.toStringLossy, "inline", s])
  | .oid oid =>
    match src with
    | none => .ok (buildStrParams [path.toStringLossy, "oid", oidString oid])
    | some kinds =>
      match kinds oid with
      | some .blob => .ok (writeTree [("0", .blob path.toStringLossy), ("o", .object oid false)])
      | some .tree => .ok (writeTree [("0", .blob path.toStringLossy), ("o", .object oid true)])
      | _ => .error ("insert: " ++ oidString oid ++ " is neither a blob nor a tree")

mutual
/-- `build_op`. -/
def buildOp : Op → Except String PObj
  | .message fmt regex => .ok (opTree "message" (buildStrParams [fmt, regex]))
  | .author name email => .ok (opTree "author" (buildStrParams [name, email]))
  | .committer name email => .ok (opTree "committer" (buildStrParams [name, email]))
  | .compose filters => do .ok (opTree "compose" (writeTree (← buildChildren 0 filters)))
  | .subtract a b => do
    let a ← buildOp a
    let b ← buildOp b
    .ok (opTree "subtract" (writeTree [("0", a), ("1", b)]))
  | .chain filters => do .ok (opTree "chain" (writeTree (← buildChildren 0 filters)))
  | .exclude b => do .ok (opTree "exclude" (writeTree [("0", ← buildOp b)]))
  | .select b => do .ok (opTree "select" (writeTree [("0", ← buildOp b)]))
  | .pin b => do .ok (opTree "pin" (writeTree [("0", ← buildOp b)]))
  | .subdir path => .ok (opTree "subdir" (buildStrParams [path.toStringLossy]))
  | .prefixDir path => .ok (opTree "prefix" (buildStrParams [path.toStringLossy]))
  | .insert path content => do .ok (opTree "insert" (← buildInsertParams src path content))
  | .file dest source =>
    .ok (opTree "file" (buildStrParams [dest.toStringLossy, source.toStringLossy]))
  | .embed path => .ok (opTree "embed" (buildStrParams [path.toStringLossy]))
  | .pattern glob => .ok (opTree "pattern" (buildStrParams [glob]))
  | .workspace path => .ok (opTree "workspace" (buildStrParams [path.toStringLossy]))
  | .stored path => .ok (opTree "stored" (buildStrParams [path.toStringLossy]))
  | .starlark path sub => do
    let sub ← buildOp sub
    .ok (opTree "starlark" (writeTree [("0", buildStrParams [path.toStringLossy]),
      ("1", writeTree [("0", sub)])]))
  | .treeId path sub => do
    let sub ← buildOp sub
    .ok (opTree "treeid" (writeTree [("0", buildStrParams [path.toStringLossy]),
      ("1", writeTree [("0", sub)])]))
  | .objectDeref path => .ok (opTree "treederef" (buildStrParams [path.toStringLossy]))
  | .objectRef path => .ok (opTree "treeref" (buildStrParams [path.toStringLossy]))
  | .nop => .ok (opTree "nop" (.blob ""))
  | .empty => .ok (opTree "empty" (.blob ""))
  | .«export» => .ok (opTree "export" (.blob ""))
  | .paths => .ok (opTree "paths" (.blob ""))
  | .link mode => .ok (opTree "link" (buildStrParams [(mode.map LinkMode.toString).getD ""]))
  | .adapt mode => .ok (opTree "adapt" (buildStrParams [mode]))
  | .unlink => .ok (opTree "unlink" (.blob ""))
  | .invert => .ok (opTree "invert" (.blob ""))
  | .index => .ok (opTree "index" (.blob ""))
  | .fold => .ok (opTree "fold" (.blob ""))
  | .squash none => .ok (opTree "squash" (.blob ""))
  | .prune => .ok (opTree "prune" (.blob "trivial-merge"))
  | .rev arms => do .ok (opTree "rev" (writeTree (← buildArms 0 arms)))
  | .unapply r f => do
    .ok (opTree "unapply" (writeTree [("0", refFilterTree r.toString (← buildOp f))]))
  | .squash (some ids) => do .ok (opTree "squash" (writeTree (← buildRefs 0 ids)))
  | .regexReplace replacements =>
    .ok (opTree "regex_replace" (writeTree (replacements.zipIdx.map fun ((regex, r), i) =>
      (toString i, writeTree [("p", .blob regex), ("r", .blob r)]))))
  | .hook hook => .ok (opTree "hook" (buildStrParams [hook]))
  | .downstack r => .ok (opTree "downstack" (buildStrParams [r.toString]))
  | .«meta» values f => do
    let f ← buildOp f
    .ok (opTree "meta" (writeTree (values.map (fun (k, v) => (k, .blob v)) ++ [("0", f)])))
/-- `build_filter_params`: the child filters' trees, named by their index from `i`. -/
def buildChildren : Nat → List Op → Except String (List (String × PObj))
  | _, [] => .ok []
  | i, f :: fs => do
    let t ← buildOp f
    let rest ← buildChildren (i + 1) fs
    .ok ((toString i, t) :: rest)
/-- `build_rev_params`: the arms, named by their index from `i`. -/
def buildArms : Nat → List (RevMatch × LazyRef × Op) → Except String (List (String × PObj))
  | _, [] => .ok []
  | i, (m, r, f) :: arms => do
    let t ← buildOp f
    let rest ← buildArms (i + 1) arms
    .ok ((toString i, refFilterTree (revKey m r) t) :: rest)
/-- `build_squash_params`: the refs and their filters, named by their index from `i`. -/
def buildRefs : Nat → List (LazyRef × Op) → Except String (List (String × PObj))
  | _, [] => .ok []
  | i, (r, f) :: ids => do
    let t ← buildOp f
    let rest ← buildRefs (i + 1) ids
    .ok ((toString i, refFilterTree r.toString t) :: rest)
end

end Build

/-- The tree `Filter::id` hashes: `build_op` without an object source. -/
def filterTree (op : Op) : Except String PObj := buildOp none op

end Josh
