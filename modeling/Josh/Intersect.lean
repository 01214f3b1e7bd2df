import Josh.TreeOps
import Josh.Apply

/-! `intersect` of `filter/tree.rs` on well-formed trees, read on leaves: it is the path-map
intersection, so within the first tree the complement of `subtract`, and `Select` and `Exclude`
of one filter split a tree in two. -/

namespace Josh

open PathMap
open scoped List

/- The entry `intersect` keeps for an entry of the selector: the entry of `a` of its name, with
the intersection of the two objects, unless that is empty. -/
def intersectEntry (es₁ : List Entry) (e₂ : Entry) : Option Entry :=
  match lookupEntry es₁ e₂.1 with
  | some (_, m₁, o₁) =>
    if intersect o₁ e₂.2.2 = emptyId then none else some (e₂.1, m₁, intersect o₁ e₂.2.2)
  | none => none

theorem intersectEntry_name {es₁ : List Entry} {e₂ e : Entry} (h : intersectEntry es₁ e₂ = some e) :
    e.1 = e₂.1 := by
  unfold intersectEntry at h
  split at h
  · split_ifs at h
    cases h
    rfl
  · cases h

theorem intersectEntries_eq_foldl (es₁ es₂ out : List Entry) :
    intersectEntries es₁ es₂ out = (es₂.filterMap (intersectEntry es₁)).foldl insertInOrder out := by
  induction es₂ generalizing out with
  | nil => rfl
  | cons e rest ih =>
    obtain ⟨n, m, o₂⟩ := e
    simp only [intersectEntries, List.filterMap_cons, intersectEntry]
    cases lookupEntry es₁ n with
    | none => exact ih out
    | some e₁ =>
      obtain ⟨_, m₁, o₁⟩ := e₁
      by_cases empty : intersect o₁ o₂ = emptyId
      · simp only [if_pos empty]
        exact ih out
      · simp only [if_neg empty, List.foldl_cons]
        exact ih _

theorem names_filterMap_sublist {f : Entry → Option Entry}
    (hf : ∀ e e', f e = some e' → e'.1 = e.1) (l : List Entry) :
    ((l.filterMap f).map (·.1)).Sublist (l.map (·.1)) := by
  induction l with
  | nil => exact .slnil
  | cons e rest ih =>
    rw [List.filterMap_cons]
    cases h : f e with
    | none => exact ih.cons _
    | some e' =>
      rw [List.map_cons, List.map_cons, hf e e' h]
      exact ih.cons_cons _

theorem lookupEntry_filterMap {f : Entry → Option Entry}
    (hf : ∀ e e', f e = some e' → e'.1 = e.1) {l : List Entry} (nodup : (l.map (·.1)).Nodup)
    (q : String) : lookupEntry (l.filterMap f) q = (lookupEntry l q).bind f := by
  induction l with
  | nil => rfl
  | cons e rest ih =>
    rw [List.map_cons, List.nodup_cons] at nodup
    rw [List.filterMap_cons, lookupEntry_cons]
    by_cases he : e.1 = q
    · -- the first entry of the name decides; no later one has it
      subst he
      have later : lookupEntry rest e.1 = none :=
        lookupEntry_eq_none.mpr fun x hx h => nodup.1 (List.mem_map.mpr ⟨x, hx, h⟩)
      cases h : f e with
      | none => simp [ih nodup.2, later, h]
      | some e' => simp [lookupEntry_cons, hf e e' h, h]
    · cases h : f e with
      | none => simp [he, ih nodup.2]
      | some e' => simp [lookupEntry_cons, hf e e' h, he, ih nodup.2]

/-! ### The cases of `intersect` -/

@[simp] theorem intersect_emptyId_left (b : Obj) : intersect emptyId b = emptyId := by
  cases b with
  | blob d => simp [intersect, emptyId]
  | tree es => simp only [intersect]; split_ifs <;> simp_all

theorem intersect_blob_left (d : List UInt8) {b : Obj} (hb : b ≠ emptyId) :
    intersect (.blob d) b = .blob d := by
  cases b with
  | blob _ => simp [intersect, emptyId]
  | tree es =>
    have hes : es ≠ [] := fun h => hb (by rw [h]; rfl)
    simp [intersect, emptyId, hes]

theorem intersect_blob_right {a : Obj} (ha : a ≠ emptyId) (d : List UInt8) :
    intersect a (.blob d) = a := by
  simp [intersect, ha]

theorem intersect_tree_tree {es₁ es₂ : List Entry} (heq : Obj.tree es₁ ≠ .tree es₂)
    (h₁ : es₁ ≠ []) (h₂ : es₂ ≠ []) :
    intersect (.tree es₁) (.tree es₂) = .tree (intersectEntries es₁ es₂ []) := by
  have hne : Obj.tree es₁ ≠ emptyId := fun h => h₁ (Obj.tree.inj h)
  rw [intersect, if_neg heq, if_neg (by simp [hne, h₂])]

/- What `intersect` returns is the first tree, the empty tree, or a tree it builds. -/
theorem intersect_isTree {a : Obj} (ha : a.isTree) (b : Obj) : (intersect a b).isTree := by
  cases b with
  | blob d => simp only [intersect]; split_ifs <;> simp_all [emptyId, Obj.isTree]
  | tree es₂ =>
    cases a with
    | blob _ => simp [Obj.isTree] at ha
    | tree es₁ => simp only [intersect]; split_ifs <;> rfl

theorem intersect_kind {a b : Obj} (h : intersect a b ≠ emptyId) :
    (intersect a b).isTree = a.isTree := by
  cases a with
  | blob d =>
    have hb : b ≠ emptyId := by rintro rfl; simp [intersect, emptyId] at h
    rw [intersect_blob_left d hb]
  | tree es₁ => exact intersect_isTree rfl b

/-! ### Leaves and well-formedness -/

/- One name in `intersect`: an entry of `a` against the entry of `b` of its name, on leaves. -/
theorem entryLeaves_intersect {e₁ e₂ : Entry} (w₁ : EntryWf e₁) (w₂ : EntryWf e₂)
    (ih : e₁.2.2.isTree → e₂.2.2.isTree → (intersect e₁.2.2 e₂.2.2).leaves =
      PathMap.intersect e₁.2.2.leaves e₂.2.2.leaves) :
    (if intersect e₁.2.2 e₂.2.2 = emptyId then empty
      else entryLeaves (e₁.2.1, intersect e₁.2.2 e₂.2.2)) =
      PathMap.intersect (entryLeaves e₁.2) (entryLeaves e₂.2) := by
  obtain ⟨n₁, m₁, o₁⟩ := e₁
  obtain ⟨n₂, m₂, o₂⟩ := e₂
  cases o₁ with
  | blob d =>
    -- a file of `a` stays whenever `b` has anything under its name
    have hm : m₁.isTree = false := w₁.kind
    rw [intersect_blob_left d w₂.nonempty, if_neg (by simp [emptyId])]
    refine (intersect_eq_left fun p hp => ?_).symm
    rw [entryLeaves_of_not_tree hm _ p hp]
    exact w₂.covers_nil
  | tree es₁ =>
    have hm₁ : m₁ = .tree := Mode.isTree_iff.mp w₁.kind
    cases o₂ with
    | blob d =>
      -- a file of `b` keeps the whole subtree of `a`
      have hm₂ : m₂.isTree = false := w₂.kind
      rw [intersect_blob_right w₁.nonempty, if_neg w₁.nonempty]
      exact (intersect_eq_left fun p _ => covers_entryLeaves_of_not_tree hm₂ _ p).symm
    | tree es₂ =>
      have hm₂ : m₂ = .tree := Mode.isTree_iff.mp w₂.kind
      subst hm₁ hm₂
      simp only [entryLeaves_tree]
      rw [← ih rfl rfl]
      split_ifs with h
      · rw [h, leaves_emptyId]
      · rfl

/- Under each name, the tree `intersect` builds has what the selector's entry keeps. -/
theorem lookupEntry_intersectEntries {es₁ es₂ : List Entry} (w₂ : TreeWf es₂) (q : String) :
    lookupEntry (intersectEntries es₁ es₂ []) q = (lookupEntry es₂ q).bind (intersectEntry es₁) := by
  have names := names_filterMap_sublist (f := intersectEntry es₁)
    (fun _ _ h => intersectEntry_name h) es₂
  have hperm := foldl_insertInOrder_perm (es₂.filterMap (intersectEntry es₁)) []
  rw [intersectEntries_eq_foldl, lookupEntry_perm hperm
    ((hperm.map _).nodup_iff.mpr (names.nodup w₂.nodup)), List.nil_append,
    lookupEntry_filterMap (fun _ _ h => intersectEntry_name h) w₂.nodup]

/-- `intersect` keeps the leaves of `a` on whose way `b` has a leaf. -/
theorem leaves_intersect (b : Obj) : ∀ a : Obj, a.wf → b.wf → a.isTree → b.isTree →
    (intersect a b).leaves = PathMap.intersect a.leaves b.leaves := by
  induction b with
  | blob d => intro a _ _ _ h; simp [Obj.isTree] at h
  | tree es₂ ih =>
    intro a wa wb ta _
    cases a with
    | blob d => simp [Obj.isTree] at ta
    | tree es₁ =>
      have w₁ := (wf_tree_iff es₁).mp wa
      have w₂ := (wf_tree_iff es₂).mp wb
      by_cases heq : Obj.tree es₁ = .tree es₂
      · rw [heq]
        simp [intersect]
      by_cases h₁ : es₁ = []
      · subst h₁
        exact (intersect_emptyId_left _).symm ▸ (intersect_empty_left _).symm
      by_cases h₂ : es₂ = []
      · subst h₂
        simp [intersect, emptyId, h₁]
      rw [intersect_tree_tree heq h₁ h₂]
      -- compare name by name: below each name both sides are read on the entries found there
      apply ext_child (by simp [PathMap.intersect, leaves_root])
      intro q
      rw [intersect_child (leaves_root _)]
      simp only [child_leaves_tree]
      rw [lookupEntry_intersectEntries w₂]
      cases l₂ : lookupEntry es₂ q with
      | none => simp
      | some e₂ =>
        obtain ⟨he₂, rfl⟩ := lookupEntry_some l₂
        cases l₁ : lookupEntry es₁ e₂.1 with
        | none => simp [intersectEntry, l₁]
        | some e₁ =>
          have he₁ := (lookupEntry_some l₁).1
          have key := entryLeaves_intersect (w₁.entries e₁ he₁) (w₂.entries e₂ he₂)
            (fun t₁ t₂ => ih e₂ he₂ e₁.2.2 (w₁.entries e₁ he₁).wf (w₂.entries e₂ he₂).wf t₁ t₂)
          simp only [Option.bind_some, Option.elim_some, intersectEntry, l₁]
          rw [← key]
          split_ifs <;> rfl

/-- `intersect` of well-formed trees is well-formed. -/
theorem wf_intersect (b : Obj) : ∀ a : Obj, a.wf → b.wf → (intersect a b).wf := by
  induction b with
  | blob d =>
    intro a wa _
    simp only [intersect]
    split_ifs <;> first | exact wa | rfl
  | tree es₂ ih =>
    intro a wa wb
    cases a with
    | blob d => simp only [intersect]; split_ifs <;> rfl
    | tree es₁ =>
      have w₂ := (wf_tree_iff es₂).mp wb
      have w₁ := (wf_tree_iff es₁).mp wa
      by_cases heq : Obj.tree es₁ = .tree es₂
      · simpa [intersect, heq] using wa
      by_cases h₁ : es₁ = []
      · subst h₁
        exact (intersect_emptyId_left _).symm ▸ rfl
      by_cases h₂ : es₂ = []
      · subst h₂
        simpa [intersect, emptyId, h₁] using wb
      rw [intersect_tree_tree heq h₁ h₂, intersectEntries_eq_foldl]
      have names := names_filterMap_sublist (f := intersectEntry es₁)
        (fun _ _ h => intersectEntry_name h) es₂
      have hperm := foldl_insertInOrder_perm (es₂.filterMap (intersectEntry es₁)) []
      -- every kept entry is the entry of `a` of its name, over a nonempty well-formed object
      have entries : ∀ e ∈ es₂.filterMap (intersectEntry es₁), EntryWf e := by
        intro e he
        obtain ⟨e₂, he₂, h⟩ := List.mem_filterMap.mp he
        unfold intersectEntry at h
        split at h
        · rename_i n₁ m₁ o₁ l₁
          split_ifs at h with hempty
          cases h
          have he₁ := (lookupEntry_some l₁)
          have ew := w₁.entries _ he₁.1
          refine ⟨he₁.2 ▸ ew.name, ew.kind.trans (intersect_kind hempty).symm, hempty,
            ih e₂ he₂ o₁ ew.wf (w₂.entries e₂ he₂).wf⟩
        · cases h
      refine (wf_tree_iff _).mpr ⟨?_, (hperm.map _).nodup_iff.mpr (names.nodup w₂.nodup),
        fun e he => entries e (by simpa using hperm.mem_iff.mp he)⟩
      exact foldl_insertInOrder_sorted _ List.Pairwise.nil (by simpa using names.nodup w₂.nodup)
        fun x hx => (entries x (by simpa using hx)).name

theorem canonical_intersect {a b : Obj} (ca : Canonical a) (cb : Canonical b) :
    Canonical (intersect a b) :=
  ⟨wf_intersect b a ca.wf cb.wf, intersect_isTree ca.isTree b⟩

theorem Canonical.leaves_intersect {a b : Obj} (ca : Canonical a) (cb : Canonical b) :
    (intersect a b).leaves = PathMap.intersect a.leaves b.leaves :=
  Josh.leaves_intersect b a ca.wf cb.wf ca.isTree cb.isTree

/-! ### The complement law, and `Select` against `Exclude` -/

theorem intersect_eq_subtract_subtract {a b : Obj} (ca : Canonical a) (cb : Canonical b) :
    intersect a b = subtract a (subtract a b) := by
  have cs := canonical_subtract ca cb
  apply (canonical_intersect ca cb).eq_of_leaves_eq (canonical_subtract ca cs)
  rw [ca.leaves_intersect cb, ca.leaves_subtract cs, ca.leaves_subtract cb,
    (valid_leaves a).subtract_subtract]

theorem overlay_intersect_subtract {t b : Obj} (ct : Canonical t) (cb : Canonical b) :
    overlay (intersect t b) (subtract t b) = t := by
  have ci := canonical_intersect ct cb
  have cs := canonical_subtract ct cb
  apply (canonical_overlay ci cs).eq_of_leaves_eq ct
  rw [ci.leaves_overlay cs, ct.leaves_intersect cb, ct.leaves_subtract cb,
    (valid_leaves t).overlay_intersect_subtract]

theorem intersect_subtract_apart {t b : Obj} (ct : Canonical t) (cb : Canonical b)
    {p q : List String} (hp : ((intersect t b).leaves p).isSome)
    (hq : ((subtract t b).leaves q).isSome) : ¬ Comparable p q := by
  rw [ct.leaves_intersect cb] at hp
  rw [ct.leaves_subtract cb] at hq
  exact (valid_leaves t).intersect_subtract_apart _ hp hq

/- `Select` and `Exclude` apply their filter once, to the same input. -/
theorem apply_select_exclude {env : ApplyEnv} {F : Op} {x bf : Rewrite}
    (hf : apply env F x = .ok bf) :
    apply env (.select F) x = .ok (x.withTree (intersect x.tree bf.tree)) ∧
      apply env (.exclude F) x = .ok (x.withTree (subtract x.tree bf.tree)) := by
  unfold apply at hf ⊢
  simp only [Op.depth, applyImpl, peelOp, hf]
  exact ⟨rfl, rfl⟩

theorem intersect_complements_subtract :
    (∀ a b : Obj, Canonical a → Canonical b → intersect a b = subtract a (subtract a b)) ∧
      ∀ (env : ApplyEnv) (F : Op) (x bf : Rewrite), Canonical x.tree → Canonical bf.tree →
        apply env F x = .ok bf →
        ∃ sel exc : Rewrite, apply env (.select F) x = .ok sel ∧
          apply env (.exclude F) x = .ok exc ∧ overlay sel.tree exc.tree = x.tree ∧
          ∀ p q, (sel.tree.leaves p).isSome → (exc.tree.leaves q).isSome → ¬ Comparable p q := by
  refine ⟨fun a b ca cb => intersect_eq_subtract_subtract ca cb, ?_⟩
  intro env F x bf ct cb hf
  obtain ⟨selected, excluded⟩ := apply_select_exclude hf
  refine ⟨_, _, selected, excluded, overlay_intersect_subtract ct cb, fun p q hp hq => ?_⟩
  exact intersect_subtract_apart ct cb hp hq

theorem intersect_complements_subtract_on_files :
    Canonical (.tree [("a", .blob, .blob [1]), ("b", .blob, .blob [2])]) ∧
      Canonical (.tree [("a", .blob, .blob [3])]) ∧
      intersect (.tree [("a", .blob, .blob [1]), ("b", .blob, .blob [2])])
          (.tree [("a", .blob, .blob [3])]) =
        subtract (.tree [("a", .blob, .blob [1]), ("b", .blob, .blob [2])])
          (subtract (.tree [("a", .blob, .blob [1]), ("b", .blob, .blob [2])])
            (.tree [("a", .blob, .blob [3])])) :=
  have ca : Canonical (.tree [("a", .blob, .blob [1]), ("b", .blob, .blob [2])]) :=
    ⟨by decide, rfl⟩
  have cb : Canonical (.tree [("a", .blob, .blob [3])]) := ⟨by decide, rfl⟩
  ⟨ca, cb, intersect_complements_subtract.1 _ _ ca cb⟩

end Josh
