import Mathlib.Order.Basic

/-! Git objects identified with their content, and the tree operations of `filter/tree.rs`.
Two oids are equal exactly when the objects are (no SHA-1 collision), so the oid
comparisons of the source are comparisons of objects here. The transaction memos in front
of `subtract`, `intersect` and `overlay` only replay results of these functions. -/
namespace Josh

/-- Tree entry modes, by the kind of object they name. -/
inductive Mode where
  | tree | blob | blobExecutable | link | commit
  deriving DecidableEq, Repr

def Mode.isTree : Mode → Bool
  | .tree => true
  | _ => false

/-- A blob by its bytes, or a tree by its entries `(name, mode, object)` in stored order. The
object of a gitlink entry (mode `commit`) lies outside the store; it is a blob of the commit id. -/
inductive Obj where
  | blob : List UInt8 → Obj
  | tree : List (String × Mode × Obj) → Obj
  deriving Repr

abbrev Entry := String × Mode × Obj

private theorem entries_cons_inj {n n' : String} {m m' : Mode} {o o' : Obj}
    {xs ys : List (String × Mode × Obj)} (e : (n, m, o) :: xs = (n', m', o') :: ys) :
    n = n' ∧ m = m' ∧ o = o' ∧ xs = ys := by
  simp only [List.cons.injEq, Prod.mk.injEq] at e
  exact ⟨e.1.1, e.1.2.1, e.1.2.2, e.2⟩

mutual
def Obj.decEq : (a b : Obj) → Decidable (a = b)
  | .blob x, .blob y =>
    if h : x = y then isTrue (h ▸ rfl) else isFalse (fun e => h (Obj.blob.inj e))
  | .tree xs, .tree ys =>
    match Obj.decEqEntries xs ys with
    | isTrue h => isTrue (h ▸ rfl)
    | isFalse h => isFalse (fun e => h (Obj.tree.inj e))
  | .blob _, .tree _ => isFalse (fun e => nomatch e)
  | .tree _, .blob _ => isFalse (fun e => nomatch e)
def Obj.decEqEntries : (xs ys : List Entry) → Decidable (xs = ys)
  | [], [] => isTrue rfl
  | [], _ :: _ => isFalse (fun e => nomatch e)
  | _ :: _, [] => isFalse (fun e => nomatch e)
  | (n, m, o) :: xs, (n', m', o') :: ys =>
    if hn : n = n' then
      if hm : m = m' then
        match Obj.decEq o o', Obj.decEqEntries xs ys with
        | isTrue ho, isTrue hs => isTrue (by subst hn hm ho hs; rfl)
        | isFalse ho, _ => isFalse (fun e => ho (entries_cons_inj e).2.2.1)
        | _, isFalse hs => isFalse (fun e => hs (entries_cons_inj e).2.2.2)
      else isFalse (fun e => hm (entries_cons_inj e).2.1)
    else isFalse (fun e => hn (entries_cons_inj e).1)
end

instance : DecidableEq Obj := Obj.decEq

/-- Induction over objects with a hypothesis for every entry of a tree. -/
@[induction_eliminator]
theorem Obj.induction {motive : Obj → Prop} (blob : ∀ d, motive (.blob d))
    (tree : ∀ es, (∀ e ∈ es, motive e.2.2) → motive (.tree es)) : ∀ o, motive o := by
  intro o
  apply Obj.rec (motive_1 := motive) (motive_2 := fun es => ∀ e ∈ es, motive e.2.2)
    (motive_3 := fun e => motive e.2.2) (motive_4 := fun mo => motive mo.2) blob tree
  · simp
  · intro head tail hh ht e he
    rcases List.mem_cons.mp he with rfl | he
    · exact hh
    · exact ht e he
  · exact fun _ _ h => h
  · exact fun _ _ h => h

/-- `empty_id`: the empty tree. -/
def emptyId : Obj := .tree []

/-- `read_tree_bytes`: the entries of a tree, nothing for any other object. -/
def Obj.entries? : Obj → Option (List Entry)
  | .tree es => some es
  | .blob _ => none

/-- The byte `git_tree_entry_cmp` reads past the end of a name: '/' for a tree, NUL otherwise. -/
def nameEnd (isTree : Bool) : Char := if isTree then '/' else '\x00'

/-- `git_tree_entry_cmp` over the common prefix: names in byte order, and at the end of the
shorter name a tree counts as followed by '/' and a blob by NUL. -/
def gitTreeEntryCmp : List Char → Bool → List Char → Bool → Ordering
  | c :: a, aTree, d :: b, bTree =>
    if c < d then .lt else if d < c then .gt else gitTreeEntryCmp a aTree b bTree
  | [], aTree, d :: _, _ => compare (nameEnd aTree) d
  | c :: _, _, [], bTree => compare c (nameEnd bTree)
  | [], aTree, [], bTree => compare (nameEnd aTree) (nameEnd bTree)

def entryCmp (a b : Entry) : Ordering :=
  gitTreeEntryCmp a.1.toList a.2.1.isTree b.1.toList b.2.1.isTree

/-- `insert_in_order` on the vector read from its end: skip the entries ordered after `e`. -/
def insertInOrderRev (e : Entry) : List Entry → List Entry
  | [] => [e]
  | x :: xs => if entryCmp x e = .gt then x :: insertInOrderRev e xs else e :: x :: xs

/-- `insert_in_order`: scanning back from the end, insert after the last entry not ordered
after `e`. -/
def insertInOrder (out : List Entry) (e : Entry) : List Entry :=
  (insertInOrderRev e out.reverse).reverse

/-- `lookup_entry` / `TreeReader::entry`: the first entry of that name, of any kind. -/
def lookupEntry (es : List Entry) (name : String) : Option Entry :=
  es.find? (fun e => e.1 == name)

/-- A name-keyed modification table, the `HashMap` of the source: a later insert wins. -/
def setMod {γ : Type} (mods : String → Option γ) (name : String) (v : γ) : String → Option γ :=
  fun k => if k = name then some v else mods k

/-- `replace_child_inner`: the tree `t` with every entry named `child` removed and, unless the
new object is the empty tree or the zero oid (`none`), one entry `(child, mode, oid)` in the
place of the first removed one, or at its ordered position. A non-tree `t` reads as empty. -/
def replaceChildInner (child : String) (oid : Option Obj) (mode : Mode) (t : Obj) : Obj :=
  let out := (t.entries?).getD []
  let first := out.findIdx? (fun e => e.1 == child)
  let out := out.filter (fun e => e.1 != child)
  match oid with
  | some o =>
    if o = emptyId then .tree out
    else
      match first with
      | some pos => .tree (out.insertIdx pos (child, mode, o))
      | none => .tree (insertInOrder out (child, mode, o))
  | none => .tree out

/-- The subtree at `parent` in the walk of `insert_oid`: a missing component, or one met
through a non-tree, gives the empty tree. -/
def descendParent (st : Obj) : List String → Obj
  | [] => st
  | c :: cs =>
    match st.entries? with
    | some es =>
      match lookupEntry es c with
      | some (_, _, o) => descendParent o cs
      | none => descendParent emptyId cs
    | none => descendParent emptyId cs

/-- `insert_oid` on the path given last component first: replace the object at the path,
creating the trees on the way and rebuilding each parent with mode tree. -/
def insertOidRev (full : Obj) : List String → Option Obj → Mode → Except String Obj
  | [], _, _ => .error "file_name"
  | [name], oid, mode => .ok (replaceChildInner name oid mode full)
  | name :: parentRev, oid, mode =>
    let st := descendParent full parentRev.reverse
    insertOidRev full parentRev (some (replaceChildInner name oid mode st)) .tree

/-- `insert_oid`: replace whatever is at `path` inside `full` by `(oid, mode)`; `none` is the
zero oid, which like the empty tree removes the entry. -/
def insertOid (full : Obj) (path : List String) (oid : Option Obj) (mode : Mode) :
    Except String Obj :=
  insertOidRev full path.reverse oid mode

/-- The descent of `get_path_entry_at` below its first entry: only tree-mode entries are
entered. -/
def descendEntry : Entry → List String → Option Entry
  | e, [] => some e
  | (_, m, o), n :: rest =>
    if m.isTree then
      match o.entries? with
      | some es => (lookupEntry es n).bind (descendEntry · rest)
      | none => none
    else none

/-- `get_path_entry`: the entry at `path` below `root`; the empty path names no entry. -/
def getPathEntry (root : Obj) : List String → Option Entry
  | [] => none
  | n :: rest =>
    match root.entries? with
    | some es => (lookupEntry es n).bind (descendEntry · rest)
    | none => none

mutual
/-- `subtract`: the paths of `a` that `b` does not have, by path alone: a blob of `b` removes
a whole subtree of `a`, a subtree of `b` removes a blob of `a`. -/
def subtract (a : Obj) : Obj → Obj
  -- `b` is not a tree: equal, empty `a` and mixed kinds all give the empty tree
  | .blob _ => emptyId
  | .tree es₂ =>
    if a = .tree es₂ then emptyId
    else if a = emptyId then emptyId
    else
      match a with
      | .tree es₁ =>
        if es₂ = [] then a
        else
          let mods := subtractMods es₁ es₂ (fun _ => none)
          .tree ((es₁.filter (fun e => mods e.1 != some none)).map
            (fun e => match mods e.1 with
              | some (some o) => (e.1, e.2.1, o)
              | _ => e))
      | .blob _ => emptyId
/-- The modification table of `subtract`: `none` removes the entry, `some` replaces its
object by the subtraction result. -/
def subtractMods (es₁ : List Entry) :
    List Entry → (String → Option (Option Obj)) → String → Option (Option Obj)
  | [], mods => mods
  | (n, _, o₂) :: rest, mods =>
    match lookupEntry es₁ n with
    | some (_, _, o₁) =>
      let sub := subtract o₁ o₂
      subtractMods es₁ rest (setMod mods n (if sub = emptyId then none else some sub))
    | none => subtractMods es₁ rest mods
end

mutual
/-- `intersect`: the paths of `a` that `b` also has, with the content and mode of `a`. -/
def intersect (a : Obj) : Obj → Obj
  | .blob d =>
    if a = .blob d then a
    else if a = emptyId then emptyId
    else a
  | .tree es₂ =>
    if a = .tree es₂ then a
    else if a = emptyId ∨ es₂ = [] then emptyId
    else
      match a with
      | .tree es₁ => .tree (intersectEntries es₁ es₂ [])
      | .blob _ => a
/-- The entries `intersect` builds, iterating the selector `es₂`. -/
def intersectEntries (es₁ : List Entry) : List Entry → List Entry → List Entry
  | [], out => out
  | (n, _, o₂) :: rest, out =>
    match lookupEntry es₁ n with
    | some (_, m₁, o₁) =>
      let child := intersect o₁ o₂
      intersectEntries es₁ rest (if child = emptyId then out else insertInOrder out (n, m₁, child))
    | none => intersectEntries es₁ rest out
end

mutual
/-- `overlay`: the entries of `a`, merged recursively with those of `b` of the same name
(`a` wins where one side is not a tree), and the other entries of `b` in order. -/
def overlay (a : Obj) : Obj → Obj
  | .blob d =>
    if a = .blob d then a
    else if a = emptyId then .blob d
    else a
  | .tree es₂ =>
    if a = .tree es₂ then a
    else if a = emptyId then .tree es₂
    else if es₂ = [] then a
    else
      match a with
      | .tree es₁ =>
        let (mods, fresh) := overlayMods es₁ es₂ (fun _ => none) []
        .tree (fresh.foldl insertInOrder (es₁.map (fun e => match mods e.1 with
          | some o => (e.1, e.2.1, o)
          | none => e)))
      | .blob _ => a
/-- The merged objects of `overlay` by name, and the entries of `b` new to `a`. -/
def overlayMods (es₁ : List Entry) :
    List Entry → (String → Option Obj) → List Entry → (String → Option Obj) × List Entry
  | [], mods, fresh => (mods, fresh)
  | (n, m₂, o₂) :: rest, mods, fresh =>
    match lookupEntry es₁ n with
    | some (_, _, o₁) => overlayMods es₁ rest (setMod mods n (overlay o₁ o₂)) fresh
    | none => overlayMods es₁ rest mods (fresh ++ [(n, m₂, o₂)])
end

end Josh
