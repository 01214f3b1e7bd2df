import Josh.Persist.Build
import Josh.Lib.Assoc
import Josh.Lib.Json

/-! Reading a persisted filter back, `from_tree2` of `josh-filter/src/persist.rs`, with
`LazyRef::parse`, `LinkMode::parse` and `git2::Oid::from_str`. The reader takes the first entry
of a tree as the op, reads parameters by name, and reads the children of `Compose`,
`RegexReplace`, `Squash` and `Unapply` by position. It recurses into child trees, so it runs
on fuel; running out of it is an error. Regexes and globs read back compile, as those of the ops
written did. -/

namespace Josh

/-- `git2::Oid::from_str`: one to forty hexadecimal digits, the missing ones zero. -/
def oidFromStr (s : String) : Option Oid :=
  let digits := s.toList
  if 0 < digits.length ∧ digits.length ≤ 40 then
    (digits ++ List.replicate (40 - digits.length) '0').foldlM
      (fun acc c => (Json.hexValue c).map (acc * 16 + ·)) 0
  else none

/-- `LazyRef::parse`: with single quotes read as double ones, a JSON string is a lazy ref, and
otherwise the text must be an oid. -/
def LazyRef.parse (s : String) : Except String LazyRef :=
  let s := String.ofList (s.toList.map fun c => if c = '\'' then '"' else c)
  match Json.stringValue? s with
  | some name => .ok (.lazy name)
  | none =>
    match oidFromStr s with
    | some oid => .ok (.resolved oid)
    | none => .error ("invalid ref: " ++ s)

/-- `LinkMode::parse`. -/
def LinkMode.parse : String → Except String LinkMode
  | "embedded" => .ok .embedded
  | "snapshot" => .ok .snapshot
  | "pointer" => .ok .pointer
  | s => .error ("Unknown link mode: " ++ s)

/-- `PathBuf::from` of a text, by its components. -/
def Path.ofString (s : String) : Path :=
  ((s.toList.splitOn '/').map String.ofList).filter (· ≠ "")

/-- The order of `LazyRef`'s derived `Ord`: resolved refs by oid, then lazy refs by name. -/
def LazyRef.lt : LazyRef → LazyRef → Prop
  | .resolved a, .resolved b => a < b
  | .resolved _, .lazy _ => True
  | .lazy _, .resolved _ => False
  | .lazy a, .lazy b => a < b

instance : LT LazyRef := ⟨LazyRef.lt⟩

instance : DecidableRel (α := LazyRef) (· < ·)
  | .resolved a, .resolved b => inferInstanceAs (Decidable (a < b))
  | .resolved _, .lazy _ => inferInstanceAs (Decidable True)
  | .lazy _, .resolved _ => inferInstanceAs (Decidable False)
  | .lazy a, .lazy b => inferInstanceAs (Decidable (a < b))

/-- `PersistedTree::read`: the entries of a tree. -/
def readTree : PObj → Except String (List (String × PObj))
  | .tree entries => .ok entries
  | _ => .error "object is not a tree"

/-- `Blob::read`. -/
def readBlob : PObj → Except String String
  | .blob content => .ok content
  | _ => .error "object is not a blob"

/-- `get_name`: the first entry of a name, or the error of its context. -/
def getName (entries : List (String × PObj)) (name context : String) : Except String PObj :=
  match Assoc.find entries name with
  | some o => .ok o
  | none => .error context

/-- The blob of a named entry of a parameter tree. -/
def readParam (params : PObj) (name context : String) : Except String String := do
  readBlob (← getName (← readTree params) name context)

/-- The ref and filter tree of an `o`, `f` tree, its ref read by `parse`. -/
def readRefFilter (inner : PObj) (key filter : String) : Except String (String × PObj) := do
  let entries ← readTree inner
  let keyBlob ← readBlob (← getName entries "o" key)
  let filterTree ← getName entries "f" filter
  let _ ← readTree filterTree
  .ok (keyBlob, filterTree)

/-- The match operator and ref of a `Rev` arm's key. -/
def parseRevKey (key : String) : Except String (RevMatch × LazyRef) :=
  if key = "_" then .ok (.default, .resolved zeroOid')
  else if ['<', '='].isPrefixOf key.toList then
    do .ok (.ancestorInclusive, ← LazyRef.parse (String.ofList (key.toList.drop 2)))
  else if ['<'].isPrefixOf key.toList then
    do .ok (.ancestorStrict, ← LazyRef.parse (String.ofList (key.toList.drop 1)))
  else if ['=', '='].isPrefixOf key.toList then
    do .ok (.equal, ← LazyRef.parse (String.ofList (key.toList.drop 2)))
  else .error ("rev: invalid key format, must start with '<', '<=', '==', or be '_': " ++ key)
where
  zeroOid' : Oid := 0

/-- `from_tree2`. -/
def fromTree2 : Nat → PObj → Except String Op
  | 0, _ => .error "out of fuel"
  | fuel + 1, tree => do
    let recur := fromTree2 fuel
    let entries ← readTree tree
    let (name, entry) ← match entries with
      | e :: _ => .ok e
      | [] => .error "Empty tree"
    match name with
    | "nop" => do let _ ← readBlob entry; .ok .nop
    | "empty" => do let _ ← readBlob entry; .ok .empty
    | "paths" => do let _ ← readBlob entry; .ok .paths
    | "export" => do let _ ← readBlob entry; .ok .«export»
    | "link" => do
      let mode ← readParam entry "0" "link: missing mode"
      if mode.isEmpty then .ok (.link none) else .ok (.link (some (← LinkMode.parse mode)))
    | "adapt" => do .ok (.adapt (← readParam entry "0" "adapt: missing mode"))
    | "unlink" => do let _ ← readBlob entry; .ok .unlink
    | "invert" => do let _ ← readBlob entry; .ok .invert
    | "index" => do let _ ← readBlob entry; .ok .index
    | "fold" => do let _ ← readBlob entry; .ok .fold
    | "prune" => do
      let content ← readBlob entry
      if content = "trivial-merge" then .ok .prune else .error "Invalid prune content"
    | "hook" => do .ok (.hook (← readParam entry "0" "hook: missing hook name"))
    | "author" => do
      let name ← readParam entry "0" "author: missing name"
      let email ← readParam entry "1" "author: missing email"
      .ok (.author name email)
    | "committer" => do
      let name ← readParam entry "0" "committer: missing name"
      let email ← readParam entry "1" "committer: missing email"
      .ok (.committer name email)
    | "message" => do
      let fmt ← readParam entry "0" "message: missing fmt string"
      let regex ← readParam entry "1" "message: missing regex"
      .ok (.message fmt regex)
    | "subdir" => do .ok (.subdir (Path.ofString (← readParam entry "0" "subdir: missing path")))
    | "prefix" => do
      .ok (.prefixDir (Path.ofString (← readParam entry "0" "prefix: missing path")))
    | "insert" => do
      let path ← readParam entry "0" "insert: missing path"
      let inner ← readTree entry
      -- an `o` entry references the inserted object itself
      match Assoc.find inner "o" with
      | some (.object oid _) => .ok (.insert (Path.ofString path) (.oid oid))
      | some _ => .error "insert: object entry is not a repository object"
      | none =>
        let kind ← readParam entry "1" "insert: missing kind"
        let value ← readParam entry "2" "insert: missing value"
        if kind = "inline" then .ok (.insert (Path.ofString path) (.inline value))
        else .error ("insert: unknown content kind " ++ kind)
    | "file" => do
      let dest ← readParam entry "0" "file: missing destination path"
      let source ← readParam entry "1" "file: missing source path"
      .ok (.file (Path.ofString dest) (Path.ofString source))
    | "embed" => do .ok (.embed (Path.ofString (← readParam entry "0" "embed: missing path")))
    | "pattern" => do .ok (.pattern (← readParam entry "0" "pattern: missing pattern"))
    | "workspace" => do
      .ok (.workspace (Path.ofString (← readParam entry "0" "workspace: missing path")))
    | "stored" => do .ok (.stored (Path.ofString (← readParam entry "0" "stored: missing path")))
    | "starlark" => do
      let inner ← readTree entry
      let pathTree ← getName inner "0" "starlark: missing path"
      let path ← readParam pathTree "0" "starlark: missing path blob"
      let filterTree ← getName inner "1" "starlark: missing filter"
      let _ ← readTree filterTree
      .ok (.starlark (Path.ofString path) (← recur filterTree))
    | "treederef" => do
      .ok (.objectDeref (Path.ofString (← readParam entry "0" "treederef: missing path")))
    | "treeref" => do
      .ok (.objectRef (Path.ofString (← readParam entry "0" "treeref: missing path")))
    | "treeid" => do
      let inner ← readTree entry
      let pathTree ← getName inner "0" "treeid: missing path"
      let path ← readParam pathTree "0" "treeid: missing path blob"
      let filterTree ← getName inner "1" "treeid: missing filter"
      let _ ← readTree filterTree
      .ok (.treeId (Path.ofString path) (← recur filterTree))
    | "compose" => do
      let children ← readTree entry
      .ok (.compose (← children.mapM fun child => recur child.2))
    | "subtract" => do
      let children ← readTree entry
      if children.length = 2 then do
        let a ← getName children "0" "subtract: missing 0"
        let b ← getName children "1" "subtract: missing 1"
        let _ ← readTree a
        let _ ← readTree b
        .ok (.subtract (← recur a) (← recur b))
      else .error "subtract: expected 2 entries"
    | "chain" => do
      let children ← readTree entry
      if children.isEmpty then .error "chain: expected at least 1 entry"
      else do
        let filters ← (List.range children.length).mapM fun i => do
          let child ← getName children (toString i) ("chain: missing " ++ toString i)
          let _ ← readTree child
          recur child
        .ok (.chain filters)
    | "exclude" => do
      let children ← readTree entry
      if children.length = 1 then do
        let child ← getName children "0" "exclude: missing 0"
        let _ ← readTree child
        .ok (.exclude (← recur child))
      else .error "exclude: expected 1 entry"
    | "select" => do
      let children ← readTree entry
      if children.length = 1 then do
        let child ← getName children "0" "select: missing 0"
        let _ ← readTree child
        .ok (.select (← recur child))
      else .error "select: expected 1 entry"
    | "pin" => do
      let children ← readTree entry
      if children.length = 1 then do
        let child ← getName children "0" "pin: missing 0"
        let _ ← readTree child
        .ok (.pin (← recur child))
      else .error "pin: expected 1 entry"
    | "rev" => do
      let arms ← readTree entry
      let filters ← (List.range arms.length).mapM fun i => do
        let arm ← getName arms (toString i) "rev: missing entry"
        let (key, filterTree) ← readRefFilter arm "rev: missing key" "rev: missing filter"
        let (m, r) ← parseRevKey key
        .ok (m, r, ← recur filterTree)
      .ok (.rev filters)
    | "unapply" => do
      let outer ← readTree entry
      let inner ← match outer with
        | (_, inner) :: _ => .ok inner
        | [] => .error "concat: missing entry"
      let (key, filterTree) ← readRefFilter inner "concat: missing key" "concat: missing filter"
      let filter ← recur filterTree
      .ok (.unapply (← LazyRef.parse key) filter)
    | "squash" =>
      match entry with
      | .blob _ => .ok (.squash none)
      | _ => do
        let ids ← readTree entry
        let filters ← ids.foldlM (fun filters id => do
          let (key, filterTree) ← readRefFilter id.2 "squash: missing key" "squash: missing filter"
          let filter ← recur filterTree
          .ok (Assoc.insertSorted filters (← LazyRef.parse key) filter)) []
        .ok (.squash (some filters))
    | "regex_replace" => do
      let pairs ← readTree entry
      let replacements ← pairs.mapM fun pair => do
        let regex ← readParam pair.2 "p" "regex_replace: missing pattern"
        let replacement ← readParam pair.2 "r" "regex_replace: missing replacement"
        .ok (regex, replacement)
      .ok (.regexReplace replacements)
    | "downstack" => do
      .ok (.downstack (← LazyRef.parse (← readParam entry "0" "downstack: missing base ref")))
    | "meta" => do
      let metaEntries ← readTree entry
      let filterTree ← getName metaEntries "0" "meta: missing filter tree"
      let _ ← readTree filterTree
      -- the entries other than `0` are the metadata, keys by name and values as blobs
      let values ← metaEntries.foldlM (fun values e =>
        if e.1 = "0" then .ok values
        else do .ok (Assoc.insertSorted values e.1 (← readBlob e.2))) []
      .ok (.«meta» values (← recur filterTree))
    | _ => .error "Unknown tree structure"

/-- `from_tree`. -/
def fromTree (fuel : Nat) (tree : PObj) : Except String Op := fromTree2 fuel tree

/-- A tree of filter parameters, the one entry `0` naming a filter's tree, is no op's tree: its
entry's name is no kind of op. -/
theorem fromTree2_filterParams (fuel : Nat) (t : PObj) :
    ∃ e, fromTree2 fuel (writeTree [("0", t)]) = .error e := by
  cases fuel with
  | zero => exact ⟨_, rfl⟩
  | succ fuel => exact ⟨_, rfl⟩

/-- The `treeid` arm reads the filter of its entry `1` as an op's tree. -/
theorem fromTree2_treeid (fuel : Nat) (s : String) (filterTree : PObj) :
    fromTree2 (fuel + 1) (opTree "treeid" (writeTree [("0", buildStrParams [s]),
      ("1", writeTree [("0", filterTree)])])) =
      (do .ok (.treeId (Path.ofString s) (← fromTree2 fuel (writeTree [("0", filterTree)])))) := by
  rw [writeTree_pair _ _ (by decide)]
  rfl

/-- `build_op` writes the filter of a `TreeId` as the filter parameters of
`build_starlark_params`, one tree deeper than `from_tree2` reads it: whatever the path, the
filter and the object source, the tree written for a `TreeId` never reads back. -/
theorem treeid_never_reads_back (src : Option (Oid → Option ObjKind)) (path : Path) (sub : Op)
    (fuel : Nat) : ∃ e, (buildOp src (.treeId path sub) >>= fromTree fuel) = .error e := by
  cases hsub : buildOp src sub with
  | error e => exact ⟨e, by rw [buildOp, hsub]; rfl⟩
  | ok t =>
    have built : buildOp src (.treeId path sub) = .ok (opTree "treeid" (writeTree
        [("0", buildStrParams [path.toStringLossy]), ("1", writeTree [("0", t)])])) := by
      rw [buildOp, hsub]
      rfl
    rw [built]
    cases fuel with
    | zero => exact ⟨_, rfl⟩
    | succ fuel =>
      -- the path reads back; the filter, one level too deep, does not
      obtain ⟨e, he⟩ := fromTree2_filterParams fuel t
      refine ⟨e, ?_⟩
      show fromTree2 (fuel + 1) (opTree "treeid" (writeTree
        [("0", buildStrParams [path.toStringLossy]), ("1", writeTree [("0", t)])])) = _
      rw [fromTree2_treeid, he]
      rfl

end Josh
