import Josh.Leaves

/-! `diff_paths` of `filter/tree.rs`: the paths at which two trees differ, each with a polarity,
`0` for a blob on both sides, `-1` for a blob of the first tree only and `1` for one of the
second only. The walk goes down both trees by name and stops where either side is a blob, so
where a blob and a tree meet only that path is reported, and nothing below it. -/

namespace Josh

/-- An oid as `diff_paths` reads it: the zero oid, an object of the store, or the commit of a
gitlink, which `kind_of` finds as neither a blob nor a tree. -/
inductive Target where
  | zero
  | obj (o : Obj)
  | gitlink (c : Obj)
  deriving DecidableEq

def Target.ofEntry : Mode × Obj → Target
  | (.commit, c) => .gitlink c
  | (_, o) => .obj o

/-- The oid of an entry that may be missing, the zero oid where it is. -/
def Target.ofEntryOpt : Option Entry → Target
  | some e => .ofEntry e.2
  | none => .zero

/-- `kind_of` finds a blob. -/
def Target.isBlob : Target → Bool
  | .obj (.blob _) => true
  | _ => false

/-- `read_tree_into` and `ParsedTree::from_bytes`: the entries of a tree of the store. -/
def Target.tree? : Target → Option (List Entry)
  | .obj (.tree es) => some es
  | _ => none

/-- The path of `name` below `root`: `root`, a `/` unless `root` is empty, and `name`. -/
def joinPath (root name : String) : String :=
  root ++ (if root.isEmpty then "" else "/") ++ name

theorem Target.isBlob_of_tree? {t : Target} {es : List Entry} (h : t.tree? = some es) :
    t.isBlob = false := by
  match t, h with
  | .obj (.tree _), _ => rfl

theorem Target.sizeOf_ofEntry_lt {t : Target} {es : List Entry} (h : t.tree? = some es)
    {e : Entry} (he : e ∈ es) : sizeOf (Target.ofEntry e.2) < sizeOf t := by
  obtain ⟨n, m, o⟩ := e
  have mem := List.sizeOf_lt_of_mem he
  have entry : sizeOf (Target.ofEntry (m, o)) = 1 + sizeOf o := by
    unfold Target.ofEntry
    split <;> simp_all
  match t, h with
  | .obj (.tree es), rfl =>
    simp only [Prod.mk.sizeOf_spec] at mem
    simp only [Target.obj.sizeOf_spec, Obj.tree.sizeOf_spec, entry]
    omega

theorem Target.sizeOf_ofEntryOpt_le {t : Target} {es : List Entry} (h : t.tree? = some es)
    (name : String) : sizeOf (Target.ofEntryOpt (lookupEntry es name)) ≤ sizeOf t := by
  cases hl : lookupEntry es name with
  | none => cases t <;> simp [Target.ofEntryOpt]
  | some e => exact (sizeOf_ofEntry_lt h (lookupEntry_some hl).1).le

theorem Target.sizeOf_zero_le (t : Target) : sizeOf Target.zero ≤ sizeOf t := by
  cases t <;> simp

/-- `diff_paths`. Names are strings here, so the error of a name that is not UTF-8 is not
modelled. -/
def diffPaths (input1 input2 : Target) (root : String) : List (String × Int) :=
  if input1 = input2 then []
  else if input1.isBlob && input2.isBlob then [(root, 0)]
  else if input1.isBlob then [(root, -1)]
  else if input2.isBlob then [(root, 1)]
  else
    match _h₁ : input1.tree?, _h₂ : input2.tree? with
    | some es₁, some es₂ =>
      es₂.attach.flatMap (fun ⟨e, _⟩ =>
          diffPaths (.ofEntryOpt (lookupEntry es₁ e.1)) (.ofEntry e.2) (joinPath root e.1)) ++
        es₁.attach.flatMap fun ⟨e, _⟩ =>
          if lookupEntry es₂ e.1 = none then diffPaths (.ofEntry e.2) .zero (joinPath root e.1)
          else []
    | none, some es₂ =>
      es₂.attach.flatMap fun ⟨e, _⟩ => diffPaths .zero (.ofEntry e.2) (joinPath root e.1)
    | some es₁, none =>
      es₁.attach.flatMap fun ⟨e, _⟩ => diffPaths (.ofEntry e.2) .zero (joinPath root e.1)
    | none, none => []
termination_by sizeOf input1 + sizeOf input2
decreasing_by
  · have := Target.sizeOf_ofEntryOpt_le _h₁ e.1
    have := Target.sizeOf_ofEntry_lt _h₂ ‹e ∈ es₂›
    omega
  · have := Target.sizeOf_ofEntry_lt _h₁ ‹e ∈ es₁›
    have := Target.sizeOf_zero_le input2
    omega
  · have := Target.sizeOf_zero_le input1
    have := Target.sizeOf_ofEntry_lt _h₂ ‹e ∈ es₂›
    omega
  · have := Target.sizeOf_ofEntry_lt _h₁ ‹e ∈ es₁›
    have := Target.sizeOf_zero_le input2
    omega

/-! ### One call of `diff_paths` -/

theorem flatMap_attach_of_eq {α β : Type} {l : List α} {f : {x // x ∈ l} → List β}
    {g : α → List β} (h : ∀ x hx, f ⟨x, hx⟩ = g x) : l.attach.flatMap f = l.flatMap g := by
  rw [List.flatMap_subtype h, List.unattach_attach]

section Call

variable {x y : Target} (ne : x ≠ y) (root : String)
include ne

theorem diffPaths_blobs (b₁ : x.isBlob) (b₂ : y.isBlob) : diffPaths x y root = [(root, 0)] := by
  rw [diffPaths, if_neg ne, if_pos (by simp [b₁, b₂])]

theorem diffPaths_removed (b₁ : x.isBlob) (b₂ : y.isBlob = false) :
    diffPaths x y root = [(root, -1)] := by
  rw [diffPaths, if_neg ne, if_neg (by simp [b₂]), if_pos b₁]

theorem diffPaths_added (b₁ : x.isBlob = false) (b₂ : y.isBlob) :
    diffPaths x y root = [(root, 1)] := by
  rw [diffPaths, if_neg ne, if_neg (by simp [b₁]), if_neg (by simp [b₁]), if_pos b₂]

theorem diffPaths_trees {es₁ es₂ : List Entry} (h₁ : x.tree? = some es₁)
    (h₂ : y.tree? = some es₂) :
    diffPaths x y root =
      es₂.flatMap (fun e =>
          diffPaths (.ofEntryOpt (lookupEntry es₁ e.1)) (.ofEntry e.2) (joinPath root e.1)) ++
        es₁.flatMap fun e =>
          if lookupEntry es₂ e.1 = none then diffPaths (.ofEntry e.2) .zero (joinPath root e.1)
          else [] := by
  rw [diffPaths, if_neg ne, Target.isBlob_of_tree? h₁, Target.isBlob_of_tree? h₂]
  simp only [Bool.and_false, Bool.false_eq_true, if_false]
  split
  · rename_i es₁' es₂' read₁ read₂
    obtain rfl : es₁' = es₁ := Option.some.inj (read₁.symm.trans h₁)
    obtain rfl : es₂' = es₂ := Option.some.inj (read₂.symm.trans h₂)
    congr 1 <;> exact flatMap_attach_of_eq fun _ _ => rfl
  all_goals simp_all

theorem diffPaths_tree_left {es₁ : List Entry} (h₁ : x.tree? = some es₁) (h₂ : y.tree? = none)
    (b₂ : y.isBlob = false) :
    diffPaths x y root = es₁.flatMap fun e => diffPaths (.ofEntry e.2) .zero (joinPath root e.1) := by
  rw [diffPaths, if_neg ne, Target.isBlob_of_tree? h₁, b₂]
  simp only [Bool.and_false, Bool.false_eq_true, if_false]
  split
  case h_3 es₁' read₁ _ =>
    obtain rfl : es₁' = es₁ := Option.some.inj (read₁.symm.trans h₁)
    exact flatMap_attach_of_eq fun _ _ => rfl
  all_goals simp_all

theorem diffPaths_tree_right {es₂ : List Entry} (h₁ : x.tree? = none) (b₁ : x.isBlob = false)
    (h₂ : y.tree? = some es₂) :
    diffPaths x y root = es₂.flatMap fun e => diffPaths .zero (.ofEntry e.2) (joinPath root e.1) := by
  rw [diffPaths, if_neg ne, b₁, Target.isBlob_of_tree? h₂]
  simp only [Bool.and_false, Bool.false_eq_true, if_false]
  split
  case h_2 es₂' _ read₂ =>
    obtain rfl : es₂' = es₂ := Option.some.inj (read₂.symm.trans h₂)
    exact flatMap_attach_of_eq fun _ _ => rfl
  all_goals simp_all

end Call

theorem diffPaths_self (x : Target) (root : String) : diffPaths x x root = [] := by
  rw [diffPaths, if_pos rfl]

/-! ### The blobs of two trees -/

mutual
/-- Every entry's mode says whether its object is a tree, as in every tree git writes. -/
def Obj.modesAgree : Obj → Bool
  | .blob _ => true
  | .tree es => entriesModesAgree es
def entriesModesAgree : List Entry → Bool
  | [] => true
  | (_, m, o) :: rest => m.isTree == o.isTree && o.modesAgree && entriesModesAgree rest
end

theorem entriesModesAgree_iff (es : List Entry) : entriesModesAgree es = true ↔
    ∀ e ∈ es, e.2.1.isTree = e.2.2.isTree ∧ e.2.2.modesAgree = true := by
  induction es with
  | nil => simp [entriesModesAgree]
  | cons e rest ih =>
    obtain ⟨n, m, o⟩ := e
    simp [entriesModesAgree, ih, and_assoc]

/-- The content of a leaf, unless it is a gitlink. -/
def blobOf (leaf : Mode × Obj) : Option Obj := if leaf.1 = .commit then none else some leaf.2

/-- The blob at a path of a tree. -/
def blobAt (t : Obj) (p : List String) : Option Obj := (t.leaves p).bind blobOf

/-- The blob at a path below an entry that may be missing. -/
def entryBlobAt (x : Option Entry) (p : List String) : Option Obj :=
  (x.bind fun e => entryLeaves e.2 p).bind blobOf

/-- The entry of a name in the tree an entry holds. -/
def entryChild (x : Option Entry) (name : String) : Option Entry :=
  (Target.ofEntryOpt x).tree?.bind fun es => lookupEntry es name

/-- An entry whose mode says whether its object is a tree, all the way down. -/
def ModesAgree (x : Option Entry) : Prop :=
  ∀ e ∈ x, e.2.1.isTree = e.2.2.isTree ∧ e.2.2.modesAgree = true

/-- The polarity `diff_paths` should give a path whose blob changed. -/
def polarity : Option Obj → Option Obj → Int
  | some _, some _ => 0
  | some _, none => -1
  | none, _ => 1

/-- The path `diff_paths` builds for the names `p` below `root`. -/
def joinPaths (root : String) (p : List String) : String := p.foldl joinPath root

theorem ofEntryOpt_tree? {x : Option Entry} {es : List Entry}
    (h : (Target.ofEntryOpt x).tree? = some es) : ∃ n m, x = some (n, m, .tree es) ∧ m ≠ .commit := by
  match x with
  | some (n, m, o) =>
    cases m <;> cases o <;> simp_all [Target.ofEntryOpt, Target.ofEntry, Target.tree?]

theorem ModesAgree.child {x : Option Entry} (hx : ModesAgree x) (name : String) :
    ModesAgree (entryChild x name) := by
  intro e he
  cases h : (Target.ofEntryOpt x).tree? with
  | none => simp [entryChild, h] at he
  | some es =>
    obtain ⟨n, m, rfl, -⟩ := ofEntryOpt_tree? h
    simp only [entryChild, h, Option.bind_some, Option.mem_def] at he
    have inner := (hx _ rfl).2
    simp only [Obj.modesAgree, entriesModesAgree_iff] at inner
    exact inner e (lookupEntry_some he).1

/-- At the end of a path, an agreeing entry holds a blob exactly when its oid is a blob's. -/
theorem entryBlobAt_nil_isSome {x : Option Entry} (hx : ModesAgree x) :
    (entryBlobAt x []).isSome = (Target.ofEntryOpt x).isBlob := by
  match x with
  | none => rfl
  | some (n, m, o) =>
    have kind := (hx _ rfl).1
    cases m <;> cases o <;>
      simp_all [entryBlobAt, entryLeaves, blobOf, Mode.isTree, Obj.isTree, Target.ofEntryOpt,
        Target.ofEntry, Target.isBlob]

theorem ofEntryOpt_of_entryBlobAt_nil {x : Option Entry} {c : Obj} (h : entryBlobAt x [] = some c) :
    Target.ofEntryOpt x = .obj c := by
  match x with
  | some (n, m, o) =>
    cases m <;> simp_all [entryBlobAt, entryLeaves, blobOf, Mode.isTree, Target.ofEntryOpt,
      Target.ofEntry]

/-- Below its first name, a path of an entry is a path of the entry of that name. -/
theorem entryBlobAt_cons {x : Option Entry} (hx : ModesAgree x) (name : String)
    (p : List String) : entryBlobAt x (name :: p) = entryBlobAt (entryChild x name) p := by
  match x with
  | none => rfl
  | some (n, m, o) =>
    have kind := (hx _ rfl).1
    cases o with
    | blob d =>
      cases m <;> simp_all [entryBlobAt, entryChild, entryLeaves, Mode.isTree, Obj.isTree,
        Target.ofEntryOpt, Target.ofEntry, Target.tree?]
    | tree es =>
      obtain rfl : m = .tree := by cases m <;> simp_all [Mode.isTree, Obj.isTree]
      simp only [entryBlobAt, entryChild, Option.bind_some, entryLeaves, Mode.isTree, if_true,
        leaves_cons_path, Target.ofEntryOpt, Target.ofEntry, Target.tree?]
      cases lookupEntry es name <;> rfl

/-- Nothing lies below a blob. -/
theorem entryBlobAt_append_eq_none {x : Option Entry} {q r : List String}
    (blob : (entryBlobAt x q).isSome) (hr : r ≠ []) : entryBlobAt x (q ++ r) = none := by
  match x with
  | some (n, m, o) =>
    have leaf : (entryLeaves (m, o) q).isSome := by
      cases h : entryLeaves (m, o) q <;> simp_all [entryBlobAt]
    simp only [entryBlobAt, Option.bind_some]
    cases hm : m.isTree
    · obtain rfl : q = [] := by
        cases q with
        | nil => rfl
        | cons _ _ => simp [entryLeaves, hm] at leaf
      cases r with
      | nil => exact absurd rfl hr
      | cons _ _ => simp [entryLeaves, hm]
    · simp only [entryLeaves, hm, if_true] at leaf ⊢
      cases below : o.leaves (q ++ r) with
      | none => rfl
      | some _ =>
        have same := leaves_prefixFree o q (q ++ r) leaf (by simp [below]) (List.prefix_append q r)
        exact absurd (List.append_right_eq_self.mp same.symm) hr

theorem isBlob_of_entryBlobAt_cons {x : Option Entry} (hx : ModesAgree x) {name : String}
    {p : List String} (h : (entryBlobAt x (name :: p)).isSome) :
    (Target.ofEntryOpt x).isBlob = false := by
  rw [entryBlobAt_cons hx] at h
  cases ht : (Target.ofEntryOpt x).tree? with
  | some es => exact Target.isBlob_of_tree? ht
  | none => simp [entryChild, ht, entryBlobAt] at h

/-! ### The walk -/

/-- One step of the walk: below two oids that differ and are not blobs, `diff_paths` reports
what it reports for the entries of each name. -/
theorem diffPaths_child_subset {x y : Option Entry} (ne : Target.ofEntryOpt x ≠ Target.ofEntryOpt y)
    (b₁ : (Target.ofEntryOpt x).isBlob = false) (b₂ : (Target.ofEntryOpt y).isBlob = false)
    (name root : String) :
    diffPaths (.ofEntryOpt (entryChild x name)) (.ofEntryOpt (entryChild y name)) (joinPath root name) ⊆
      diffPaths (.ofEntryOpt x) (.ofEntryOpt y) root := by
  cases h₁ : (Target.ofEntryOpt x).tree? with
  | some es₁ =>
    cases h₂ : (Target.ofEntryOpt y).tree? with
    | some es₂ =>
      simp only [entryChild, h₁, h₂, Option.bind_some]
      rw [diffPaths_trees ne root h₁ h₂]
      cases l₂ : lookupEntry es₂ name with
      | some e₂ =>
        obtain ⟨mem, rfl⟩ := lookupEntry_some l₂
        exact fun d hd => List.mem_append_left _ (List.mem_flatMap.mpr ⟨e₂, mem, hd⟩)
      | none =>
        cases l₁ : lookupEntry es₁ name with
        | some e₁ =>
          obtain ⟨mem, rfl⟩ := lookupEntry_some l₁
          refine fun d hd => List.mem_append_right _ (List.mem_flatMap.mpr ⟨e₁, mem, ?_⟩)
          rw [if_pos l₂]
          exact hd
        | none => simp [Target.ofEntryOpt, diffPaths_self]
    | none =>
      simp only [entryChild, h₁, h₂, Option.bind_some, Option.bind_none]
      rw [diffPaths_tree_left ne root h₁ h₂ b₂]
      cases l₁ : lookupEntry es₁ name with
      | some e₁ =>
        obtain ⟨mem, rfl⟩ := lookupEntry_some l₁
        exact fun d hd => List.mem_flatMap.mpr ⟨e₁, mem, hd⟩
      | none => simp [Target.ofEntryOpt, diffPaths_self]
  | none =>
    cases h₂ : (Target.ofEntryOpt y).tree? with
    | some es₂ =>
      simp only [entryChild, h₁, h₂, Option.bind_some, Option.bind_none]
      rw [diffPaths_tree_right ne root h₁ b₁ h₂]
      cases l₂ : lookupEntry es₂ name with
      | some e₂ =>
        obtain ⟨mem, rfl⟩ := lookupEntry_some l₂
        exact fun d hd => List.mem_flatMap.mpr ⟨e₂, mem, hd⟩
      | none => simp [Target.ofEntryOpt, diffPaths_self]
    | none =>
      simp only [entryChild, h₁, h₂, Option.bind_none]
      simp [Target.ofEntryOpt, diffPaths_self]

section Walk

variable {x y : Option Entry} (hx : ModesAgree x) (hy : ModesAgree y) (root : String)
include hx hy

/-- Where the blobs at the walk's own path differ, it reports the path with their polarity. -/
theorem mem_diffPaths_of_changed_here (changed : entryBlobAt x [] ≠ entryBlobAt y []) :
    (root, polarity (entryBlobAt x []) (entryBlobAt y [])) ∈
      diffPaths (.ofEntryOpt x) (.ofEntryOpt y) root := by
  have kind₁ := entryBlobAt_nil_isSome hx
  have kind₂ := entryBlobAt_nil_isSome hy
  have ne : (entryBlobAt x []).isSome ≠ (entryBlobAt y []).isSome →
      Target.ofEntryOpt x ≠ Target.ofEntryOpt y := fun kinds same => kinds (by rw [kind₁, kind₂, same])
  cases h₁ : entryBlobAt x [] with
  | some c₁ =>
    rw [h₁] at kind₁ ne changed
    cases h₂ : entryBlobAt y [] with
    | some c₂ =>
      have contents : Target.ofEntryOpt x ≠ Target.ofEntryOpt y := by
        rw [ofEntryOpt_of_entryBlobAt_nil h₁, ofEntryOpt_of_entryBlobAt_nil h₂]
        exact fun same => changed (by rw [h₂, Target.obj.inj same])
      rw [diffPaths_blobs contents root kind₁.symm (by rw [← kind₂, h₂]; rfl)]
      exact List.mem_singleton_self _
    | none =>
      rw [h₂] at kind₂ ne
      rw [diffPaths_removed (ne (by simp)) root kind₁.symm kind₂.symm]
      exact List.mem_singleton_self _
  | none =>
    rw [h₁] at kind₁ ne changed
    cases h₂ : entryBlobAt y [] with
    | some c₂ =>
      rw [h₂] at kind₂ ne
      rw [diffPaths_added (ne (by simp)) root kind₁.symm kind₂.symm]
      exact List.mem_singleton_self _
    | none => exact absurd h₂.symm changed

/-- A path whose blob changed is reported with its polarity, unless a blob lies above it. -/
theorem mem_diffPaths_of_changed (p : List String) (changed : entryBlobAt x p ≠ entryBlobAt y p)
    (above : ∀ q r, p = q ++ r → r ≠ [] → entryBlobAt x q = none ∧ entryBlobAt y q = none) :
    (joinPaths root p, polarity (entryBlobAt x p) (entryBlobAt y p)) ∈
      diffPaths (.ofEntryOpt x) (.ofEntryOpt y) root := by
  induction p generalizing x y root with
  | nil => exact mem_diffPaths_of_changed_here hx hy root changed
  | cons name p ih =>
    have here := above [] (name :: p) rfl (List.cons_ne_nil name p)
    have b₁ : (Target.ofEntryOpt x).isBlob = false := by rw [← entryBlobAt_nil_isSome hx, here.1]; rfl
    have b₂ : (Target.ofEntryOpt y).isBlob = false := by rw [← entryBlobAt_nil_isSome hy, here.2]; rfl
    rw [entryBlobAt_cons hx, entryBlobAt_cons hy] at changed ⊢
    have ne : Target.ofEntryOpt x ≠ Target.ofEntryOpt y :=
      fun same => changed (by simp only [entryChild, same])
    apply diffPaths_child_subset ne b₁ b₂ name root
    apply ih (hx.child name) (hy.child name) (joinPath root name) changed
    intro q r hp hr
    rw [← entryBlobAt_cons hx, ← entryBlobAt_cons hy]
    exact above (name :: q) r (by rw [hp]; rfl) hr

/-- Where one side holds a blob at a path and the other holds something below it, the walk
reports that path, with the polarity of the side that holds the blob. -/
theorem mem_diffPaths_of_blob_above (q r : List String) (hr : r ≠ []) :
    ((entryBlobAt x q).isSome → (entryBlobAt y (q ++ r)).isSome →
        (joinPaths root q, -1) ∈ diffPaths (.ofEntryOpt x) (.ofEntryOpt y) root) ∧
      ((entryBlobAt y q).isSome → (entryBlobAt x (q ++ r)).isSome →
        (joinPaths root q, 1) ∈ diffPaths (.ofEntryOpt x) (.ofEntryOpt y) root) := by
  obtain ⟨n, r, rfl⟩ := List.exists_cons_of_ne_nil hr
  induction q generalizing x y root with
  | nil =>
    have kind₁ := entryBlobAt_nil_isSome hx
    have kind₂ := entryBlobAt_nil_isSome hy
    constructor
    · intro blob below
      have b₂ := isBlob_of_entryBlobAt_cons hy below
      rw [blob] at kind₁
      have ne : Target.ofEntryOpt x ≠ Target.ofEntryOpt y := fun same => by simp_all
      rw [diffPaths_removed ne root kind₁.symm b₂]
      exact List.mem_singleton_self _
    · intro blob below
      have b₁ := isBlob_of_entryBlobAt_cons hx below
      rw [blob] at kind₂
      have ne : Target.ofEntryOpt x ≠ Target.ofEntryOpt y := fun same => by simp_all
      rw [diffPaths_added ne root b₁ kind₂.symm]
      exact List.mem_singleton_self _
  | cons name q ih =>
    obtain ⟨left, right⟩ := ih (hx.child name) (hy.child name) (joinPath root name)
    constructor
    · intro blob below
      have b₁ := isBlob_of_entryBlobAt_cons hx blob
      have b₂ := isBlob_of_entryBlobAt_cons hy below
      rw [entryBlobAt_cons hx] at blob
      rw [List.cons_append, entryBlobAt_cons hy] at below
      -- one entry cannot hold a blob at `q` and something below it
      have ne : Target.ofEntryOpt x ≠ Target.ofEntryOpt y := fun same => by
        have child : entryChild x name = entryChild y name := by simp only [entryChild, same]
        rw [child] at blob
        rw [entryBlobAt_append_eq_none blob (List.cons_ne_nil n r)] at below
        cases below
      exact diffPaths_child_subset ne b₁ b₂ name root (left blob below)
    · intro blob below
      have b₁ := isBlob_of_entryBlobAt_cons hx below
      have b₂ := isBlob_of_entryBlobAt_cons hy blob
      rw [entryBlobAt_cons hy] at blob
      rw [List.cons_append, entryBlobAt_cons hx] at below
      have ne : Target.ofEntryOpt x ≠ Target.ofEntryOpt y := fun same => by
        have child : entryChild x name = entryChild y name := by simp only [entryChild, same]
        rw [← child] at blob
        rw [entryBlobAt_append_eq_none blob (List.cons_ne_nil n r)] at below
        cases below
      exact diffPaths_child_subset ne b₁ b₂ name root (right blob below)

end Walk

theorem modesAgree_root {es : List Entry} (h : (Obj.tree es).modesAgree) :
    ModesAgree (some ("", .tree, .tree es)) := by
  intro e he
  obtain rfl := Option.some.inj (Option.mem_def.mp he)
  exact ⟨rfl, h⟩

/-- `diff_paths` of two trees reports every blob path whose presence or content differs: with
its polarity where no blob lies above it, and otherwise the path of that blob, where a blob of
one tree meets a directory of the other. -/
theorem diff_paths_reports_changed_blobs (a b : List Entry) (ha : (Obj.tree a).modesAgree)
    (hb : (Obj.tree b).modesAgree) (p : List String)
    (changed : blobAt (.tree a) p ≠ blobAt (.tree b) p) :
    ((∀ q r, p = q ++ r → r ≠ [] → blobAt (.tree a) q = none ∧ blobAt (.tree b) q = none) →
      (joinPaths "" p, polarity (blobAt (.tree a) p) (blobAt (.tree b) p)) ∈
        diffPaths (.obj (.tree a)) (.obj (.tree b)) "") ∧
    ∀ q r, p = q ++ r → r ≠ [] →
      ((blobAt (.tree a) q).isSome →
        (joinPaths "" q, -1) ∈ diffPaths (.obj (.tree a)) (.obj (.tree b)) "") ∧
      ((blobAt (.tree b) q).isSome →
        (joinPaths "" q, 1) ∈ diffPaths (.obj (.tree a)) (.obj (.tree b)) "") := by
  have blobs : ∀ (es : List Entry) p, blobAt (.tree es) p = entryBlobAt (some ("", .tree, .tree es)) p :=
    fun _ _ => rfl
  simp only [blobs] at changed ⊢
  refine ⟨mem_diffPaths_of_changed (modesAgree_root ha) (modesAgree_root hb) "" p changed, ?_⟩
  rintro q r rfl hr
  obtain ⟨left, right⟩ :=
    mem_diffPaths_of_blob_above (modesAgree_root ha) (modesAgree_root hb) "" q r hr
  refine ⟨fun blob => left blob ?_, fun blob => right blob ?_⟩
  · rw [entryBlobAt_append_eq_none blob hr] at changed
    exact Option.isSome_iff_ne_none.mpr (Ne.symm changed)
  · rw [entryBlobAt_append_eq_none blob hr] at changed
    exact Option.isSome_iff_ne_none.mpr changed

/-- A file added beside a modified one, in a directory both trees have. -/
theorem diff_paths_reports_added_file :
    let a : List Entry := [("d", .tree, .tree [("x", .blob, .blob [1])])]
    let b : List Entry := [("d", .tree, .tree [("x", .blob, .blob [2]), ("y", .blob, .blob [3])])]
    let p := ["d", "y"]
    (Obj.tree a).modesAgree ∧ (Obj.tree b).modesAgree ∧ blobAt (.tree a) p ≠ blobAt (.tree b) p ∧
      ((∀ q r, p = q ++ r → r ≠ [] → blobAt (.tree a) q = none ∧ blobAt (.tree b) q = none) →
        (joinPaths "" p, polarity (blobAt (.tree a) p) (blobAt (.tree b) p)) ∈
          diffPaths (.obj (.tree a)) (.obj (.tree b)) "") ∧
      ∀ q r, p = q ++ r → r ≠ [] →
        ((blobAt (.tree a) q).isSome →
          (joinPaths "" q, -1) ∈ diffPaths (.obj (.tree a)) (.obj (.tree b)) "") ∧
        ((blobAt (.tree b) q).isSome →
          (joinPaths "" q, 1) ∈ diffPaths (.obj (.tree a)) (.obj (.tree b)) "") := by
  intro a b p
  have ha : (Obj.tree a).modesAgree := by decide
  have hb : (Obj.tree b).modesAgree := by decide
  have changed : blobAt (.tree a) p ≠ blobAt (.tree b) p := by decide
  exact ⟨ha, hb, changed, diff_paths_reports_changed_blobs a b ha hb p changed⟩

end Josh
