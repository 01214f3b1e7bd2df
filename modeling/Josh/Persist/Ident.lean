import Mathlib
import Josh.Persist.Read
import Josh.Lib.Option

/-! Filter ids as cache keys. `Filter::id` is the id of the tree `build_op` writes without an
object source, so two filters share an id exactly when they have one such tree. The tree leaves
out one field of an op, the ref of a default `Rev` arm, and so identifies ops up to it. On ops in
the normal form the source's types give them (paths of normal components, oids of forty
hexadecimal digits, `Meta` keys in the order of their `BTreeMap`), it identifies them exactly:
a reader, written here and not in the source, gets the op back from its tree. -/

namespace Josh

/-- A path of normal components, as `Path::components` gives them. -/
def Path.normal (p : Path) : Bool := p.all fun c => c ≠ "" && !c.toList.contains '/'

/-- An oid is forty hexadecimal digits. -/
def LazyRef.normal : LazyRef → Bool
  | .resolved oid => oid < 16 ^ 40
  | .lazy _ => true

def InsertContent.normal : InsertContent → Bool
  | .inline _ => true
  | .oid id => id < 16 ^ 40

mutual
/-- Every path, oid and `Meta` map within an op in normal form. -/
def Op.normal : Op → Bool
  | .«meta» values f => decide (values.Pairwise fun a b => a.1 < b.1) && f.normal
  | .squash (some ids) => Op.normalRefs ids
  | .rev arms => Op.normalArms arms
  | .insert path content => path.normal && content.normal
  | .file dest source => dest.normal && source.normal
  | .prefixDir p | .subdir p | .embed p | .workspace p | .stored p | .objectDeref p
  | .objectRef p => p.normal
  | .starlark p f | .treeId p f => p.normal && f.normal
  | .unapply r f => r.normal && f.normal
  | .downstack r => r.normal
  | .compose fs | .chain fs => Op.normalList fs
  | .subtract a b => a.normal && b.normal
  | .exclude f | .select f | .pin f => f.normal
  | _ => true
def Op.normalList : List Op → Bool
  | [] => true
  | f :: fs => f.normal && Op.normalList fs
def Op.normalRefs : List (LazyRef × Op) → Bool
  | [] => true
  | (r, f) :: ids => r.normal && f.normal && Op.normalRefs ids
-- the ref of a default arm is not written, so it need not be an oid
def Op.normalArms : List (RevMatch × LazyRef × Op) → Bool
  | [] => true
  | (m, r, f) :: arms => (m == .default || r.normal) && f.normal && Op.normalArms arms
end

mutual
/-- How deep the trees of an op nest. -/
def Op.height : Op → Nat
  | .«meta» _ f | .starlark _ f | .treeId _ f | .unapply _ f | .exclude f | .select f
  | .pin f => f.height + 1
  | .squash (some ids) => Op.heightRefs ids + 1
  | .rev arms => Op.heightArms arms + 1
  | .compose fs | .chain fs => Op.heightList fs + 1
  | .subtract a b => max a.height b.height + 1
  | _ => 1
def Op.heightList : List Op → Nat
  | [] => 0
  | f :: fs => max f.height (Op.heightList fs)
def Op.heightRefs : List (LazyRef × Op) → Nat
  | [] => 0
  | (_, f) :: ids => max f.height (Op.heightRefs ids)
def Op.heightArms : List (RevMatch × LazyRef × Op) → Nat
  | [] => 0
  | (_, _, f) :: arms => max f.height (Op.heightArms arms)
end

/-- The ref a default arm has once parsed: the zero oid. -/
def armRef (m : RevMatch) (r : LazyRef) : LazyRef := if m = .default then .resolved 0 else r

mutual
/-- The op with the ref of each default `Rev` arm set to the zero oid. -/
def Op.canon : Op → Op
  | .«meta» values f => .«meta» values f.canon
  | .squash (some ids) => .squash (some (Op.canonRefs ids))
  | .rev arms => .rev (Op.canonArms arms)
  | .starlark p f => .starlark p f.canon
  | .treeId p f => .treeId p f.canon
  | .unapply r f => .unapply r f.canon
  | .compose fs => .compose (Op.canonList fs)
  | .chain fs => .chain (Op.canonList fs)
  | .subtract a b => .subtract a.canon b.canon
  | .exclude f => .exclude f.canon
  | .select f => .select f.canon
  | .pin f => .pin f.canon
  | f => f
def Op.canonList : List Op → List Op
  | [] => []
  | f :: fs => f.canon :: Op.canonList fs
def Op.canonRefs : List (LazyRef × Op) → List (LazyRef × Op)
  | [] => []
  | (r, f) :: ids => (r, f.canon) :: Op.canonRefs ids
def Op.canonArms : List (RevMatch × LazyRef × Op) → List (RevMatch × LazyRef × Op)
  | [] => []
  | (m, r, f) :: arms => (m, armRef m r, f.canon) :: Op.canonArms arms
end

def PObj.entries? : PObj → Option (List (String × PObj))
  | .tree entries => some entries
  | _ => none

def PObj.content? : PObj → Option String
  | .blob content => some content
  | _ => none

namespace IdTree

/-- Objects named by their index from `i`, as `build_filter_params` names them. -/
def named (i : Nat) (objects : List PObj) : List (String × PObj) :=
  (objects.zipIdx i).map fun p => (toString p.2, p.1)

/-- The entries of a tree named `0`, `1`, ... in the order of their index. -/
def indexed (o : PObj) : Option (List PObj) := do
  let entries ← o.entries?
  (List.range entries.length).mapM fun i => Assoc.find entries (toString i)

def strings (o : PObj) : Option (List String) := do (← indexed o).mapM PObj.content?

def entry (o : PObj) (name : String) : Option PObj := do Assoc.find (← o.entries?) name

/-- A ref from its text: a name in double quotes, or an oid. -/
def lazyRef (s : String) : Option LazyRef :=
  if s.toList.head? = some '"' then some (.lazy (String.ofList s.toList.tail.dropLast))
  else (oidFromStr s).map .resolved

def revKey (s : String) : Option (RevMatch × LazyRef) :=
  match s.toList with
  | ['_'] => some (.default, .resolved 0)
  | '<' :: rest =>
    if rest.head? = some '=' then (.ancestorInclusive, ·) <$> lazyRef (String.ofList rest.tail)
    else (.ancestorStrict, ·) <$> lazyRef (String.ofList rest)
  | '=' :: '=' :: rest => (.equal, ·) <$> lazyRef (String.ofList rest)
  | _ => none

/-- The key and the filter's tree of an `o`, `f` tree. -/
def refFilter (o : PObj) : Option (String × PObj) := do
  some ((← (← entry o "o").content?), ← entry o "f")

/-- The metadata of a `Meta` tree: its blobs. -/
def metaValues (entries : List (String × PObj)) : List (String × String) :=
  entries.filterMap fun e => e.2.content?.map (e.1, ·)

/-- The filter of a `Meta` tree: its one tree. -/
def metaFilter (entries : List (String × PObj)) : Option PObj :=
  (entries.find? fun e => e.2.entries?.isSome).map (·.2)

/-- Reading an op back from the tree `build_op` writes for it. -/
def decode : Nat → PObj → Option Op
  | 0, _ => none
  | fuel + 1, o => do
    let [(name, params)] ← o.entries? | none
    let recur := decode fuel
    match name with
    | "message" => do
      let [fmt, regex] ← strings params | none
      some (.message fmt regex)
    | "author" => do
      let [name, email] ← strings params | none
      some (.author name email)
    | "committer" => do
      let [name, email] ← strings params | none
      some (.committer name email)
    | "compose" => do some (.compose (← (← indexed params).mapM recur))
    | "chain" => do some (.chain (← (← indexed params).mapM recur))
    | "subtract" => do
      let [a, b] ← indexed params | none
      some (.subtract (← recur a) (← recur b))
    | "exclude" => do
      let [f] ← indexed params | none
      some (.exclude (← recur f))
    | "select" => do
      let [f] ← indexed params | none
      some (.select (← recur f))
    | "pin" => do
      let [f] ← indexed params | none
      some (.pin (← recur f))
    | "subdir" => do
      let [p] ← strings params | none
      some (.subdir (Path.ofString p))
    | "prefix" => do
      let [p] ← strings params | none
      some (.prefixDir (Path.ofString p))
    | "insert" => do
      let [p, kind, content] ← strings params | none
      if kind = "inline" then some (.insert (Path.ofString p) (.inline content))
      else some (.insert (Path.ofString p) (.oid (← oidFromStr content)))
    | "file" => do
      let [dest, source] ← strings params | none
      some (.file (Path.ofString dest) (Path.ofString source))
    | "embed" => do
      let [p] ← strings params | none
      some (.embed (Path.ofString p))
    | "pattern" => do
      let [glob] ← strings params | none
      some (.pattern glob)
    | "workspace" => do
      let [p] ← strings params | none
      some (.workspace (Path.ofString p))
    | "stored" => do
      let [p] ← strings params | none
      some (.stored (Path.ofString p))
    | "starlark" => do
      let [pathParams, filterParams] ← indexed params | none
      let [p] ← strings pathParams | none
      let [f] ← indexed filterParams | none
      some (.starlark (Path.ofString p) (← recur f))
    | "treeid" => do
      let [pathParams, filterParams] ← indexed params | none
      let [p] ← strings pathParams | none
      let [f] ← indexed filterParams | none
      some (.treeId (Path.ofString p) (← recur f))
    | "treederef" => do
      let [p] ← strings params | none
      some (.objectDeref (Path.ofString p))
    | "treeref" => do
      let [p] ← strings params | none
      some (.objectRef (Path.ofString p))
    | "nop" => some .nop
    | "empty" => some .empty
    | "export" => some .«export»
    | "paths" => some .paths
    | "link" => do
      let [mode] ← strings params | none
      if mode = "" then some (.link none) else some (.link (some (← (LinkMode.parse mode).toOption)))
    | "adapt" => do
      let [mode] ← strings params | none
      some (.adapt mode)
    | "unlink" => some .unlink
    | "invert" => some .invert
    | "index" => some .index
    | "fold" => some .fold
    | "squash" =>
      match params with
      | .blob _ => some (.squash none)
      | _ => do
        let ids ← (← indexed params).mapM fun o => do
          let (key, filter) ← refFilter o
          some (← lazyRef key, ← recur filter)
        some (.squash (some ids))
    | "prune" => some .prune
    | "rev" => do
      let arms ← (← indexed params).mapM fun o => do
        let (key, filter) ← refFilter o
        let (m, r) ← revKey key
        some (m, r, ← recur filter)
      some (.rev arms)
    | "unapply" => do
      let [inner] ← indexed params | none
      let (key, filter) ← refFilter inner
      some (.unapply (← lazyRef key) (← recur filter))
    | "regex_replace" => do
      let replacements ← (← indexed params).mapM fun o => do
        some ((← (← entry o "p").content?), ← (← entry o "r").content?)
      some (.regexReplace replacements)
    | "hook" => do
      let [hook] ← strings params | none
      some (.hook hook)
    | "downstack" => do
      let [r] ← strings params | none
      some (.downstack (← lazyRef r))
    | "meta" => do
      let entries ← params.entries?
      some (.«meta» (metaValues entries) (← recur (← metaFilter entries)))
    | _ => none

end IdTree


section Reading

theorem toString_injective : Function.Injective (toString : Nat → String) :=
  fun _ _ h => Nat.repr_inj.mp h

theorem IdTree.indexed_named (objects : List PObj) :
    IdTree.indexed (writeTree (IdTree.named 0 objects)) = some objects := by
  have perm := List.perm_insertionSort (fun a b : String × PObj => a.1 ≤ b.1) (IdTree.named 0 objects)
  have keys := Assoc.nodup_keys_zipIdx_map toString_injective objects 0
  -- the sort keeps each index's name on its object
  have reads : ∀ i, Assoc.find ((IdTree.named 0 objects).insertionSort fun a b => a.1 ≤ b.1)
      (toString i) = objects[i]? := fun i => by
    have named := Assoc.find_zipIdx_map toString_injective objects 0 i
    rw [Nat.zero_add] at named
    rw [← Assoc.find_perm perm.symm keys, IdTree.named, named]
  have length : ((IdTree.named 0 objects).insertionSort fun a b => a.1 ≤ b.1).length =
      objects.length := by
    simp [IdTree.named]
  show List.mapM (fun i => Assoc.find ((IdTree.named 0 objects).insertionSort fun a b => a.1 ≤ b.1)
    (toString i)) (List.range ((IdTree.named 0 objects).insertionSort fun a b => a.1 ≤ b.1).length) =
    some objects
  rw [length, Option.mapM_congr_of_mem fun i _ => reads i]
  exact Option.mapM_range_getElem? objects

theorem buildStrParams_eq (params : List String) :
    buildStrParams params = writeTree (IdTree.named 0 (params.map .blob)) := by
  rw [buildStrParams, IdTree.named, List.zipIdx_map, List.map_map]
  rfl

theorem IdTree.strings_buildStrParams (params : List String) :
    IdTree.strings (buildStrParams params) = some params := by
  rw [buildStrParams_eq, IdTree.strings, IdTree.indexed_named]
  exact Option.mapM_of_forall₂ (List.forall₂_map_left_iff.mpr (List.forall₂_same.mpr fun _ _ => rfl))

@[simp] theorem Path.normal_iff {p : Path} : p.normal = true ↔ ∀ c ∈ p, c ≠ "" ∧ '/' ∉ c.toList := by
  simp [Path.normal]

theorem Path.ofString_toStringLossy {p : Path} (h : p.normal) : Path.ofString p.toStringLossy = p := by
  rw [Path.normal_iff] at h
  cases p with
  | nil => rfl
  | cons c cs =>
    have apart : ∀ l ∈ (c :: cs).map String.toList, '/' ∉ l := by
      simp only [List.mem_map]
      rintro l ⟨x, hx, rfl⟩
      exact (h x hx).2
    rw [Path.ofString, Path.toStringLossy, String.toList_intercalate,
      show "/".toList = ['/'] from rfl, List.splitOn_intercalate '/' apart (by simp)]
    simp only [List.map_map, Function.comp_def, String.ofList_toList, List.map_id']
    exact List.filter_eq_self.mpr fun x hx => by simpa using (h x hx).1

theorem foldlM_hexValue_hexDigits (w n a : Nat) :
    (Nat.hexDigits w n).foldlM (fun acc c => (Json.hexValue c).map (acc * 16 + ·)) a =
      some (a * 16 ^ w + n % 16 ^ w) := by
  induction w generalizing n a with
  | zero => simp [Nat.hexDigits, Nat.mod_one]
  | succ w ih =>
    rw [Nat.hexDigits, List.foldlM_append, ih]
    have digit := Json.hexValue_digitChar (Nat.mod_lt n (show 16 > 0 by omega))
    simp only [List.foldlM_cons, List.foldlM_nil, digit]
    simp
    -- the new digit is the lowest: `n % 16 ^ (w + 1)` splits at it
    rw [pow_succ', Nat.mod_mul]
    ring

theorem oidFromStr_oidString {oid : Oid} (h : oid < 16 ^ 40) :
    oidFromStr (oidString oid) = some oid := by
  simp only [oidFromStr, oidString, String.toList_ofList, Nat.length_hexDigits]
  simp only [show 0 < 40 ∧ 40 ≤ 40 from by omega, Nat.sub_self, List.replicate_zero,
    List.append_nil, foldlM_hexValue_hexDigits, Nat.mod_eq_of_lt h]
  simp

theorem digitChar_ne {k : Nat} (hk : k < 16) : Nat.digitChar k ≠ '"' ∧ Nat.digitChar k ≠ '=' := by
  have digits : ∀ x : Fin 16, Nat.digitChar x ≠ '"' ∧ Nat.digitChar x ≠ '=' := by decide
  exact digits ⟨k, hk⟩

theorem oidString_head (oid : Oid) :
    ∃ c rest, (oidString oid).toList = c :: rest ∧ c ≠ '"' ∧ c ≠ '=' := by
  obtain ⟨c, rest, hc⟩ : ∃ c rest, Nat.hexDigits 40 oid = c :: rest :=
    List.exists_cons_of_length_pos (by simp)
  obtain ⟨k, hk, rfl⟩ := Nat.mem_hexDigits (hc ▸ List.mem_cons_self)
  exact ⟨_, rest, by simp [oidString, hc], digitChar_ne hk⟩

theorem IdTree.lazyRef_toString {r : LazyRef} (h : r.normal) : IdTree.lazyRef r.toString = some r := by
  cases r with
  | resolved oid =>
    obtain ⟨c, rest, hc, hq, -⟩ := oidString_head oid
    simp [IdTree.lazyRef, LazyRef.toString, hc, hq,
      oidFromStr_oidString (by simpa [LazyRef.normal] using h)]
  | lazy name => simp [IdTree.lazyRef, LazyRef.toString]

theorem LazyRef.toString_head (r : LazyRef) : ∃ c rest, r.toString.toList = c :: rest ∧ c ≠ '=' := by
  cases r with
  | resolved oid =>
    obtain ⟨c, rest, hc, -, he⟩ := oidString_head oid
    exact ⟨c, rest, hc, he⟩
  | lazy name => exact ⟨'"', name.toList ++ ['"'], by simp [LazyRef.toString], by decide⟩

theorem IdTree.revKey_revKey {m : RevMatch} {r : LazyRef} (h : m = .default ∨ r.normal) :
    IdTree.revKey (Josh.revKey m r) = some (m, armRef m r) := by
  obtain ⟨c, rest, hc, he⟩ := r.toString_head
  have back : String.ofList (c :: rest) = r.toString := by rw [← hc, String.ofList_toList]
  cases m with
  | default => simp [IdTree.revKey, Josh.revKey, armRef]
  | ancestorStrict =>
    have read := IdTree.lazyRef_toString (h.resolve_left (by decide))
    simp [IdTree.revKey, Josh.revKey, hc, he, back, read, armRef]
  | ancestorInclusive =>
    have read := IdTree.lazyRef_toString (h.resolve_left (by decide))
    simp [IdTree.revKey, Josh.revKey, hc, back, read, armRef]
  | equal =>
    have read := IdTree.lazyRef_toString (h.resolve_left (by decide))
    simp [IdTree.revKey, Josh.revKey, hc, back, read, armRef]

theorem refFilterTree_eq (key : String) (filter : PObj) :
    refFilterTree key filter = .tree [("f", filter), ("o", .blob key)] := by
  simp [refFilterTree, writeTree]

theorem IdTree.refFilter_refFilterTree (key : String) (filter : PObj) :
    IdTree.refFilter (refFilterTree key filter) = some (key, filter) := by
  rw [refFilterTree_eq]
  rfl

end Reading

end Josh
