import Mathlib.Order.Basic

/-! The filter language of `josh-filter/src/op.rs`. A `Filter` is the interned node of an `Op`,
and interning is by structural equality, so the children of an op are ops here. Paths are the
lists of their normal components, a `Regex` and a compiled glob are their source strings, and an
oid is an opaque number. -/

namespace Josh

abbrev Path := List String

abbrev Oid := Nat

/-- `Regex`: compared, hashed and printed by its pattern string. -/
abbrev Regex := String

inductive LinkMode where
  | embedded | snapshot | pointer
  deriving DecidableEq, Repr

inductive LazyRef where
  | resolved : Oid → LazyRef
  | lazy : String → LazyRef
  deriving DecidableEq, Repr

inductive InsertContent where
  | inline : String → InsertContent
  | oid : Oid → InsertContent
  deriving DecidableEq, Repr

inductive RevMatch where
  | ancestorStrict | ancestorInclusive | equal | default
  deriving DecidableEq, Repr

/-- `Op`, constructor by constructor; `Prefix` is `prefixDir` (the word is a Lean command). -/
inductive Op where
  | «meta» : List (String × String) → Op → Op
  | nop | empty | fold | paths
  | adapt : String → Op
  | link : Option LinkMode → Op
  | unlink | «export»
  | embed : Path → Op
  | squash : Option (List (LazyRef × Op)) → Op
  | author : String → String → Op
  | committer : String → String → Op
  | rev : List (RevMatch × LazyRef × Op) → Op
  | prune
  | regexReplace : List (Regex × String) → Op
  | hook : String → Op
  | index | invert
  | insert : Path → InsertContent → Op
  | file : Path → Path → Op
  | prefixDir : Path → Op
  | subdir : Path → Op
  | workspace : Path → Op
  | stored : Path → Op
  | starlark : Path → Op → Op
  | treeId : Path → Op → Op
  | objectDeref : Path → Op
  | objectRef : Path → Op
  | pattern : String → Op
  | message : String → Regex → Op
  | unapply : LazyRef → Op → Op
  | compose : List Op → Op
  | chain : List Op → Op
  | subtract : Op → Op → Op
  | exclude : Op → Op
  | select : Op → Op
  | pin : Op → Op
  | downstack : LazyRef → Op
  deriving Repr

private theorem decide_cons {α : Type} {x y : α} {xs ys : List α} (h : x = y) (t : xs = ys) :
    x :: xs = y :: ys := h ▸ t ▸ rfl

mutual
/-- The derived `PartialEq` of `Op`: same constructor and equal fields. -/
def Op.decEq (x y : Op) : Decidable (x = y) :=
  if h : x.ctorIdx = y.ctorIdx then
    match x, y, h with
    | .«meta» m f, .«meta» m' f', _ =>
      if hm : m = m' then
        match Op.decEq f f' with
        | isTrue e => isTrue (hm ▸ e ▸ rfl)
        | isFalse e => isFalse fun h => e (Op.meta.inj h).2
      else isFalse fun h => hm (Op.meta.inj h).1
    | .nop, .nop, _ | .empty, .empty, _ | .fold, .fold, _ | .paths, .paths, _
    | .unlink, .unlink, _ | .«export», .«export», _ | .prune, .prune, _
    | .index, .index, _ | .invert, .invert, _ => isTrue rfl
    | .adapt a, .adapt b, _ =>
      if e : a = b then isTrue (e ▸ rfl) else isFalse fun h => e (Op.adapt.inj h)
    | .link a, .link b, _ =>
      if e : a = b then isTrue (e ▸ rfl) else isFalse fun h => e (Op.link.inj h)
    | .embed a, .embed b, _ =>
      if e : a = b then isTrue (e ▸ rfl) else isFalse fun h => e (Op.embed.inj h)
    | .squash none, .squash none, _ => isTrue rfl
    | .squash none, .squash (some _), _ => isFalse fun h => nomatch Op.squash.inj h
    | .squash (some _), .squash none, _ => isFalse fun h => nomatch Op.squash.inj h
    | .squash (some a), .squash (some b), _ =>
      match Op.decEqRefs a b with
      | isTrue e => isTrue (e ▸ rfl)
      | isFalse e => isFalse fun h => e (Option.some.inj (Op.squash.inj h))
    | .author a b, .author c d, _ =>
      if e : a = c ∧ b = d then isTrue (e.1 ▸ e.2 ▸ rfl)
      else isFalse fun h => e (Op.author.inj h)
    | .committer a b, .committer c d, _ =>
      if e : a = c ∧ b = d then isTrue (e.1 ▸ e.2 ▸ rfl)
      else isFalse fun h => e (Op.committer.inj h)
    | .rev a, .rev b, _ =>
      match Op.decEqArms a b with
      | isTrue e => isTrue (e ▸ rfl)
      | isFalse e => isFalse fun h => e (Op.rev.inj h)
    | .regexReplace a, .regexReplace b, _ =>
      if e : a = b then isTrue (e ▸ rfl) else isFalse fun h => e (Op.regexReplace.inj h)
    | .hook a, .hook b, _ =>
      if e : a = b then isTrue (e ▸ rfl) else isFalse fun h => e (Op.hook.inj h)
    | .insert a b, .insert c d, _ =>
      if e : a = c ∧ b = d then isTrue (e.1 ▸ e.2 ▸ rfl)
      else isFalse fun h => e (Op.insert.inj h)
    | .file a b, .file c d, _ =>
      if e : a = c ∧ b = d then isTrue (e.1 ▸ e.2 ▸ rfl)
      else isFalse fun h => e (Op.file.inj h)
    | .prefixDir a, .prefixDir b, _ =>
      if e : a = b then isTrue (e ▸ rfl) else isFalse fun h => e (Op.prefixDir.inj h)
    | .subdir a, .subdir b, _ =>
      if e : a = b then isTrue (e ▸ rfl) else isFalse fun h => e (Op.subdir.inj h)
    | .workspace a, .workspace b, _ =>
      if e : a = b then isTrue (e ▸ rfl) else isFalse fun h => e (Op.workspace.inj h)
    | .stored a, .stored b, _ =>
      if e : a = b then isTrue (e ▸ rfl) else isFalse fun h => e (Op.stored.inj h)
    | .starlark a f, .starlark b g, _ =>
      if e : a = b then
        match Op.decEq f g with
        | isTrue e' => isTrue (e ▸ e' ▸ rfl)
        | isFalse e' => isFalse fun h => e' (Op.starlark.inj h).2
      else isFalse fun h => e (Op.starlark.inj h).1
    | .treeId a f, .treeId b g, _ =>
      if e : a = b then
        match Op.decEq f g with
        | isTrue e' => isTrue (e ▸ e' ▸ rfl)
        | isFalse e' => isFalse fun h => e' (Op.treeId.inj h).2
      else isFalse fun h => e (Op.treeId.inj h).1
    | .objectDeref a, .objectDeref b, _ =>
      if e : a = b then isTrue (e ▸ rfl) else isFalse fun h => e (Op.objectDeref.inj h)
    | .objectRef a, .objectRef b, _ =>
      if e : a = b then isTrue (e ▸ rfl) else isFalse fun h => e (Op.objectRef.inj h)
    | .pattern a, .pattern b, _ =>
      if e : a = b then isTrue (e ▸ rfl) else isFalse fun h => e (Op.pattern.inj h)
    | .message a b, .message c d, _ =>
      if e : a = c ∧ b = d then isTrue (e.1 ▸ e.2 ▸ rfl)
      else isFalse fun h => e (Op.message.inj h)
    | .unapply a f, .unapply b g, _ =>
      if e : a = b then
        match Op.decEq f g with
        | isTrue e' => isTrue (e ▸ e' ▸ rfl)
        | isFalse e' => isFalse fun h => e' (Op.unapply.inj h).2
      else isFalse fun h => e (Op.unapply.inj h).1
    | .compose a, .compose b, _ =>
      match Op.decEqList a b with
      | isTrue e => isTrue (e ▸ rfl)
      | isFalse e => isFalse fun h => e (Op.compose.inj h)
    | .chain a, .chain b, _ =>
      match Op.decEqList a b with
      | isTrue e => isTrue (e ▸ rfl)
      | isFalse e => isFalse fun h => e (Op.chain.inj h)
    | .subtract a b, .subtract c d, _ =>
      match Op.decEq a c, Op.decEq b d with
      | isTrue e, isTrue e' => isTrue (e ▸ e' ▸ rfl)
      | isFalse e, _ => isFalse fun h => e (Op.subtract.inj h).1
      | _, isFalse e' => isFalse fun h => e' (Op.subtract.inj h).2
    | .exclude a, .exclude b, _ =>
      match Op.decEq a b with
      | isTrue e => isTrue (e ▸ rfl)
      | isFalse e => isFalse fun h => e (Op.exclude.inj h)
    | .select a, .select b, _ =>
      match Op.decEq a b with
      | isTrue e => isTrue (e ▸ rfl)
      | isFalse e => isFalse fun h => e (Op.select.inj h)
    | .pin a, .pin b, _ =>
      match Op.decEq a b with
      | isTrue e => isTrue (e ▸ rfl)
      | isFalse e => isFalse fun h => e (Op.pin.inj h)
    | .downstack a, .downstack b, _ =>
      if e : a = b then isTrue (e ▸ rfl) else isFalse fun h => e (Op.downstack.inj h)
  else isFalse fun e => h (e ▸ rfl)
def Op.decEqList : (a b : List Op) → Decidable (a = b)
  | [], [] => isTrue rfl
  | [], _ :: _ => isFalse fun e => nomatch e
  | _ :: _, [] => isFalse fun e => nomatch e
  | x :: xs, y :: ys =>
    match Op.decEq x y, Op.decEqList xs ys with
    | isTrue e, isTrue e' => isTrue (decide_cons e e')
    | isFalse e, _ => isFalse fun h => e (List.cons.inj h).1
    | _, isFalse e' => isFalse fun h => e' (List.cons.inj h).2
def Op.decEqRefs : (a b : List (LazyRef × Op)) → Decidable (a = b)
  | [], [] => isTrue rfl
  | [], _ :: _ => isFalse fun e => nomatch e
  | _ :: _, [] => isFalse fun e => nomatch e
  | (r, x) :: xs, (s, y) :: ys =>
    if hr : r = s then
      match Op.decEq x y, Op.decEqRefs xs ys with
      | isTrue e, isTrue e' => isTrue (decide_cons (hr ▸ e ▸ rfl) e')
      | isFalse e, _ => isFalse fun h => e (Prod.mk.inj (List.cons.inj h).1).2
      | _, isFalse e' => isFalse fun h => e' (List.cons.inj h).2
    else isFalse fun h => hr (Prod.mk.inj (List.cons.inj h).1).1
def Op.decEqArms : (a b : List (RevMatch × LazyRef × Op)) → Decidable (a = b)
  | [], [] => isTrue rfl
  | [], _ :: _ => isFalse fun e => nomatch e
  | _ :: _, [] => isFalse fun e => nomatch e
  | (k, r, x) :: xs, (k', s, y) :: ys =>
    if hr : k = k' ∧ r = s then
      match Op.decEq x y, Op.decEqArms xs ys with
      | isTrue e, isTrue e' => isTrue (decide_cons (hr.1 ▸ hr.2 ▸ e ▸ rfl) e')
      | isFalse e, _ => isFalse fun h => e (Prod.mk.inj (Prod.mk.inj (List.cons.inj h).1).2).2
      | _, isFalse e' => isFalse fun h => e' (List.cons.inj h).2
    else isFalse fun h => hr ⟨(Prod.mk.inj (List.cons.inj h).1).1,
      (Prod.mk.inj (Prod.mk.inj (List.cons.inj h).1).2).1⟩
end

instance : DecidableEq Op := Op.decEq

/-- `peel_op`: the op below all `Meta` wrappers. -/
def peelOp : Op → Op
  | .«meta» _ f => peelOp f
  | op => op

end Josh
