import Josh.Leaves

/-! The tree operations of `filter/tree.rs` on well-formed trees, read on their leaves:
`subtract` and `overlay` are the path-map operations of the same names, the subtree at a path
and the tree built around one are relocations, and every result is again well-formed. -/

namespace Josh

open PathMap
open scoped List

/-! ### Lookup through the rebuilds -/

theorem lookupEntry_filter (P : String → Bool) (es : List Entry) (q : String) :
    lookupEntry (es.filter (fun e => P e.1)) q = if P q then lookupEntry es q else none := by
  induction es with
  | nil => simp [lookupEntry]
  | cons e rest ih =>
    by_cases he : e.1 = q
    · subst he
      by_cases hp : P e.1 <;> simp [hp, lookupEntry_cons, ih]
    · by_cases hp : P e.1 <;> simp [hp, lookupEntry_cons, he, ih]

theorem lookupEntry_map (f : Entry → Entry) (hf : ∀ e, (f e).1 = e.1) (es : List Entry)
    (q : String) : lookupEntry (es.map f) q = (lookupEntry es q).map f := by
  induction es with
  | nil => rfl
  | cons e rest ih => by_cases he : e.1 = q <;> simp [lookupEntry_cons, hf, he, ih]

theorem leaves_tree (es : List Entry) : (Obj.tree es).leaves = entriesLeaves es := rfl

@[simp] theorem leaves_emptyId : emptyId.leaves = empty := rfl

@[simp] theorem leaves_tree_nil : (Obj.tree []).leaves = empty := rfl

@[simp] theorem leaves_blob (d : List UInt8) : (Obj.blob d).leaves = empty := rfl

theorem child_leaves_tree (es : List Entry) (q : String) :
    child (Obj.tree es).leaves q = (lookupEntry es q).elim empty (fun e => entryLeaves e.2) :=
  child_entriesLeaves es q

/-- A non-tree entry is a leaf at the empty path, and nowhere else. -/
theorem entryLeaves_of_not_tree {m : Mode} (hm : m.isTree = false) (o : Obj) (p : List String)
    (h : (entryLeaves (m, o) p).isSome) : p = [] := by
  by_contra hp
  simp [entryLeaves, hm, hp] at h

theorem entryLeaves_cons_of_not_tree {m : Mode} (hm : m.isTree = false) (o : Obj) (q : String)
    (qs : List String) : entryLeaves (m, o) (q :: qs) = none := by
  simp [entryLeaves, hm]

/-- A non-tree entry covers every path below it. -/
theorem covers_entryLeaves_of_not_tree {m : Mode} (hm : m.isTree = false) (o : Obj)
    (p : List String) : Covers (entryLeaves (m, o)) p :=
  covers_of_root (by simp [entryLeaves, hm]) p

theorem EntryWf.covers_nil {e : Entry} (w : EntryWf e) : Covers (entryLeaves e.2) [] := by
  obtain ⟨p, hp⟩ := exists_entryLeaves_isSome e.2.2 e.2.1 w.kind w.wf w.nonempty
  exact PathMap.covers_nil hp

/-- Replacing objects under the same name and mode keeps the order of entries. -/
theorem sorted_map_of_key {f : Entry → Entry} (hf : ∀ e, (f e).1 = e.1 ∧ (f e).2.1 = e.2.1)
    {l : List Entry} (h : l.Pairwise EntryLt) : (l.map f).Pairwise EntryLt := by
  rw [List.pairwise_map]
  refine h.imp fun h => ?_
  -- the order only reads names and modes
  unfold EntryLt entryCmp
  rw [(hf _).1, (hf _).2, (hf _).1, (hf _).2]
  exact h

theorem names_map_of_key {f : Entry → Entry} (hf : ∀ e, (f e).1 = e.1 ∧ (f e).2.1 = e.2.1)
    (l : List Entry) : (l.map f).map (·.1) = l.map (·.1) := by
  rw [List.map_map]
  exact List.map_congr_left fun e _ => (hf e).1

/-- Rebuilding a well-formed tree by dropping entries by name and replacing objects under the
same name and mode keeps it well-formed, given that every new entry is. -/
theorem TreeWf.filter_map {es : List Entry} (w : TreeWf es) (P : String → Bool)
    (f : Entry → Entry) (hf : ∀ e, (f e).1 = e.1 ∧ (f e).2.1 = e.2.1)
    (hent : ∀ e ∈ es, P e.1 = true → EntryWf (f e)) :
    TreeWf ((es.filter (fun e => P e.1)).map f) := by
  refine ⟨sorted_map_of_key hf (w.sorted.sublist List.filter_sublist), ?_, ?_⟩
  · rw [names_map_of_key hf]
    exact w.nodup.sublist (List.filter_sublist.map _)
  · intro e he
    obtain ⟨e', he', rfl⟩ := List.mem_map.mp he
    rw [List.mem_filter] at he'
    exact hent e' he'.1 he'.2

/-! ### `subtract` -/

@[simp] theorem subtract_blob_right (a : Obj) (d : List UInt8) :
    subtract a (.blob d) = emptyId := by
  simp [subtract]

@[simp] theorem subtract_blob_left (d : List UInt8) (b : Obj) :
    subtract (.blob d) b = emptyId := by
  cases b with
  | blob _ => simp [subtract]
  | tree es => simp [subtract, emptyId]

theorem subtract_isTree (a b : Obj) : (subtract a b).isTree := by
  cases b with
  | blob _ => rfl
  | tree es₂ =>
    cases a with
    | blob _ => rfl
    | tree es₁ => simp only [subtract]; split_ifs <;> rfl

/-- The modification table of `subtract` for unique names: the entry of `b` of that name, if
`a` has one too, decides. -/
theorem subtractMods_apply (es₁ : List Entry) {es₂ : List Entry} (nodup : (es₂.map (·.1)).Nodup)
    (mods : String → Option (Option Obj)) (q : String) :
    subtractMods es₁ es₂ mods q =
      match lookupEntry es₂ q, lookupEntry es₁ q with
      | some e₂, some e₁ =>
        some (if subtract e₁.2.2 e₂.2.2 = emptyId then none else some (subtract e₁.2.2 e₂.2.2))
      | _, _ => mods q := by
  induction es₂ generalizing mods with
  | nil => simp [subtractMods, lookupEntry]
  | cons e rest ih =>
    obtain ⟨n, m, o₂⟩ := e
    rw [List.map_cons, List.nodup_cons] at nodup
    have hn : lookupEntry rest n = none :=
      lookupEntry_eq_none.mpr (fun e he h => nodup.1 (List.mem_map.mpr ⟨e, he, h⟩))
    simp only [subtractMods, lookupEntry_cons]
    -- the entry of `b` named `n` is the last to touch the table at `n`
    cases h₁ : lookupEntry es₁ n with
    | none =>
      dsimp only
      rw [ih nodup.2]
      by_cases hq : n = q
      · subst hq
        simp [hn, h₁]
      · simp [hq]
    | some e₁ =>
      obtain ⟨_, _, o₁⟩ := e₁
      dsimp only
      rw [ih nodup.2]
      by_cases hq : n = q
      · subst hq
        simp [hn, h₁, setMod]
      · simp [hq, setMod, Ne.symm hq]

/-- One name in `subtract`: the fate of an entry of `a` against the entry of `b` of its name,
read on leaves. -/
theorem entryLeaves_subtract {e₁ e₂ : Entry} (w₁ : EntryWf e₁) (w₂ : EntryWf e₂)
    (ih : e₂.2.2.isTree → (subtract e₁.2.2 e₂.2.2).leaves =
      PathMap.subtract e₁.2.2.leaves e₂.2.2.leaves) :
    (if subtract e₁.2.2 e₂.2.2 = emptyId then empty
      else entryLeaves (e₁.2.1, subtract e₁.2.2 e₂.2.2)) =
      PathMap.subtract (entryLeaves e₁.2) (entryLeaves e₂.2) := by
  obtain ⟨n₁, m₁, o₁⟩ := e₁
  obtain ⟨n₂, m₂, o₂⟩ := e₂
  cases o₁ with
  | blob d =>
    -- a file of `a` goes whenever `b` has anything under its name
    have hm : m₁.isTree = false := w₁.kind
    rw [subtract_blob_left, if_pos rfl]
    refine (subtract_eq_empty fun p hp => ?_).symm
    rw [entryLeaves_of_not_tree hm _ p hp]
    exact w₂.covers_nil
  | tree es₁ =>
    have hm₁ : m₁ = .tree := Mode.isTree_iff.mp w₁.kind
    cases o₂ with
    | blob d =>
      -- a file of `b` removes the whole subtree of `a`
      have hm₂ : m₂.isTree = false := w₂.kind
      rw [subtract_blob_right, if_pos rfl]
      exact (subtract_eq_empty fun p _ => covers_entryLeaves_of_not_tree hm₂ _ p).symm
    | tree es₂ =>
      have hm₂ : m₂ = .tree := Mode.isTree_iff.mp w₂.kind
      subst hm₁ hm₂
      simp only [entryLeaves_tree]
      rw [← ih rfl]
      split_ifs with h
      · rw [h, leaves_emptyId]
      · rfl

/-- `subtract` removes from `a` exactly the leaves on whose way `b` has a leaf. -/
theorem leaves_subtract (b : Obj) : ∀ a : Obj, a.wf → b.wf → b.isTree →
    (subtract a b).leaves = PathMap.subtract a.leaves b.leaves := by
  induction b with
  | blob d => intro a _ _ h; simp [Obj.isTree] at h
  | tree es₂ ih =>
    intro a wa wb _
    cases a with
    | blob d => simp
    | tree es₁ =>
      have w₁ := (wf_tree_iff es₁).mp wa
      have w₂ := (wf_tree_iff es₂).mp wb
      by_cases heq : Obj.tree es₁ = .tree es₂
      · rw [heq]
        simp [subtract]
      by_cases h₁ : es₁ = []
      · subst h₁
        have he : Obj.tree [] = emptyId := rfl
        rw [subtract, if_neg heq, if_pos he]
        simp
      by_cases h₂ : es₂ = []
      · subst h₂
        simp [subtract, heq, emptyId]
      have hne : Obj.tree es₁ ≠ emptyId := fun h => h₁ (Obj.tree.inj h)
      rw [subtract, if_neg heq, if_neg hne]
      dsimp only
      rw [if_neg h₂]
      -- compare name by name: below each name both sides are read on the entries found there
      apply ext_child (by simp [PathMap.subtract])
      intro q
      rw [subtract_child (leaves_root _)]
      simp only [child_leaves_tree]
      rw [lookupEntry_map _ (fun e => by split <;> rfl),
        lookupEntry_filter (fun n => subtractMods es₁ es₂ (fun _ => none) n != some none)]
      have hm := subtractMods_apply es₁ w₂.nodup (fun _ => none) q
      cases l₁ : lookupEntry es₁ q with
      | none => simp
      | some e₁ =>
        obtain ⟨he₁, rfl⟩ := lookupEntry_some l₁
        cases l₂ : lookupEntry es₂ e₁.1 with
        | none =>
          rw [l₁, l₂] at hm
          simp [hm]
        | some e₂ =>
          rw [l₁, l₂] at hm
          have he₂ := (lookupEntry_some l₂).1
          have key := entryLeaves_subtract (w₁.entries e₁ he₁) (w₂.entries e₂ he₂)
            (ih e₂ he₂ e₁.2.2 (w₁.entries e₁ he₁).wf (w₂.entries e₂ he₂).wf)
          simp only [Option.elim_some]
          rw [← key]
          by_cases hs : subtract e₁.2.2 e₂.2.2 = emptyId <;> simp [hm, hs]

/-- `subtract` of well-formed trees is well-formed. -/
theorem wf_subtract (b : Obj) : ∀ a : Obj, a.wf → b.wf → (subtract a b).wf := by
  induction b with
  | blob d => intro a _ _; simp; rfl
  | tree es₂ ih =>
    intro a wa wb
    cases a with
    | blob d => simp; rfl
    | tree es₁ =>
      have w₁ := (wf_tree_iff es₁).mp wa
      have w₂ := (wf_tree_iff es₂).mp wb
      rw [subtract]
      split_ifs with heq hne h₂
      · rfl
      · rfl
      · exact wa
      dsimp only
      refine (wf_tree_iff _).mpr
        (w₁.filter_map (fun n => subtractMods es₁ es₂ (fun _ => none) n != some none) _ ?_ ?_)
      · intro e
        split <;> simp
      intro e he hP
      have hm := subtractMods_apply es₁ w₂.nodup (fun _ => none) e.1
      rw [lookupEntry_of_mem w₁.nodup he] at hm
      have ew := w₁.entries e he
      cases l₂ : lookupEntry es₂ e.1 with
      | none =>
        rw [l₂] at hm
        simpa [hm] using ew
      | some e₂ =>
        rw [l₂] at hm
        have he₂ := (lookupEntry_some l₂).1
        by_cases hs : subtract e.2.2 e₂.2.2 = emptyId
        · simp [hm, hs] at hP
        · simp only [hm, hs, if_false]
          -- only a subtree of `a` survives with new content, so the mode stays right
          have ht : e.2.2.isTree := by
            cases h : e.2.2 with
            | blob d => rw [h, subtract_blob_left] at hs; exact absurd rfl hs
            | tree _ => rfl
          exact ⟨ew.name, ew.kind.trans (ht.trans (subtract_isTree _ _).symm), hs,
            ih e₂ he₂ e.2.2 ew.wf (w₂.entries e₂ he₂).wf⟩

/-! ### Ordered insertion -/

theorem entryCmp_eq_gt_iff (a b : Entry) : entryCmp a b = .gt ↔ EntryLt b a := by
  unfold EntryLt entryCmp
  rw [← gitTreeEntryCmp_swap]
  cases gitTreeEntryCmp b.1.toList b.2.1.isTree a.1.toList a.2.1.isTree <;> decide

/-- Entries of different valid names are ordered one way or the other. -/
theorem entryLt_total {a b : Entry} (ha : ValidName a.1) (hb : ValidName b.1) (hne : a.1 ≠ b.1) :
    EntryLt a b ∨ EntryLt b a := by
  rw [entryLt_iff ha hb, entryLt_iff hb ha]
  apply lt_or_gt_of_ne
  intro h
  -- the keys have the same length, so the names agree
  have hlen : a.1.toList.length = b.1.toList.length := by
    simpa [entryKey] using congrArg List.length h
  exact hne (String.toList_inj.mp (List.append_inj_left h hlen))

theorem insertInOrderRev_perm (e : Entry) (l : List Entry) : insertInOrderRev e l ~ e :: l := by
  induction l with
  | nil => exact List.Perm.refl _
  | cons x xs ih =>
    rw [insertInOrderRev]
    split_ifs
    · exact (ih.cons x).trans (List.Perm.swap e x xs)
    · exact List.Perm.refl _

theorem insertInOrder_perm (out : List Entry) (e : Entry) : insertInOrder out e ~ out ++ [e] := by
  unfold insertInOrder
  calc (insertInOrderRev e out.reverse).reverse
      _ ~ insertInOrderRev e out.reverse := List.reverse_perm _
      _ ~ e :: out.reverse := insertInOrderRev_perm e _
      _ ~ e :: out := (List.reverse_perm out).cons e
      _ ~ out ++ [e] := (List.perm_append_singleton e out).symm

theorem foldl_insertInOrder_perm (fresh : List Entry) :
    ∀ out : List Entry, fresh.foldl insertInOrder out ~ out ++ fresh := by
  induction fresh with
  | nil => intro out; simp
  | cons e rest ih =>
    intro out
    rw [List.foldl_cons]
    calc rest.foldl insertInOrder (insertInOrder out e)
        _ ~ insertInOrder out e ++ rest := ih _
        _ ~ out ++ [e] ++ rest := (insertInOrder_perm out e).append_right rest
        _ = out ++ e :: rest := by simp

/-- `insert_in_order` into the reversed entries: the skipped entries are those after `e`. -/
theorem insertInOrderRev_sorted {e : Entry} (he : ValidName e.1) :
    ∀ {l : List Entry}, l.Pairwise (fun a b => EntryLt b a) →
      (∀ x ∈ l, ValidName x.1 ∧ x.1 ≠ e.1) →
      (insertInOrderRev e l).Pairwise (fun a b => EntryLt b a) := by
  intro l
  induction l with
  | nil => intro _ _; simp [insertInOrderRev]
  | cons x xs ih =>
    intro hs hl
    rw [List.pairwise_cons] at hs
    have hx := hl x List.mem_cons_self
    rw [insertInOrderRev]
    split_ifs with hgt
    · -- `x` comes after `e` and stays in front
      rw [entryCmp_eq_gt_iff] at hgt
      refine List.pairwise_cons.mpr ⟨fun y hy => ?_, ih hs.2 fun y hy => hl y (.tail _ hy)⟩
      rcases List.mem_cons.mp ((insertInOrderRev_perm e xs).mem_iff.mp hy) with rfl | hy
      · exact hgt
      · exact hs.1 y hy
    · -- `e` goes right before `x`, and so before everything below it
      have hxe : EntryLt x e := (entryLt_total hx.1 he hx.2).resolve_right
        fun h => hgt ((entryCmp_eq_gt_iff x e).mpr h)
      refine List.pairwise_cons.mpr ⟨fun y hy => ?_, List.pairwise_cons.mpr hs⟩
      rcases List.mem_cons.mp hy with rfl | hy
      · exact hxe
      · exact entryLt_trans (hl y (.tail _ hy)).1 hx.1 he (hs.1 y hy) hxe

theorem insertInOrder_sorted {out : List Entry} {e : Entry} (he : ValidName e.1)
    (hs : out.Pairwise EntryLt) (hl : ∀ x ∈ out, ValidName x.1 ∧ x.1 ≠ e.1) :
    (insertInOrder out e).Pairwise EntryLt := by
  unfold insertInOrder
  rw [List.pairwise_reverse]
  exact insertInOrderRev_sorted he (List.pairwise_reverse.mpr hs)
    fun x hx => hl x (List.mem_reverse.mp hx)

/-- Inserting entries of new valid names one by one into a sorted list keeps it sorted. -/
theorem foldl_insertInOrder_sorted (fresh : List Entry) :
    ∀ {out : List Entry}, out.Pairwise EntryLt → ((out ++ fresh).map (·.1)).Nodup →
      (∀ x ∈ out ++ fresh, ValidName x.1) → (fresh.foldl insertInOrder out).Pairwise EntryLt := by
  induction fresh with
  | nil => intro out hs _ _; simpa using hs
  | cons e rest ih =>
    intro out hs nodup valid
    have hperm := insertInOrder_perm out e
    rw [List.foldl_cons]
    apply ih
    · refine insertInOrder_sorted (valid e (by simp)) hs fun x hx => ⟨valid x (by simp [hx]), ?_⟩
      -- `e` is new to `out`
      intro h
      rw [List.map_append, List.nodup_append] at nodup
      exact nodup.2.2 _ (List.mem_map_of_mem hx) _ (by simp) h
    · have : insertInOrder out e ++ rest ~ out ++ e :: rest := by
        simpa using hperm.append_right rest
      exact (this.map _).nodup_iff.mpr nodup
    · intro x hx
      rcases List.mem_append.mp hx with hx | hx
      · rcases List.mem_append.mp (hperm.mem_iff.mp hx) with hx | hx
        · exact valid x (by simp [hx])
        · exact valid x (by simp_all)
      · exact valid x (by simp [hx])

/-! ### `overlay` -/

@[simp] theorem overlay_blob_left (d : List UInt8) (b : Obj) : overlay (.blob d) b = .blob d := by
  cases b with
  | blob _ => simp [overlay, emptyId]
  | tree es => simp [overlay, emptyId]

@[simp] theorem overlay_emptyId_left (b : Obj) : overlay emptyId b = b := by
  cases b with
  | blob d => simp [overlay, emptyId]
  | tree es =>
    -- the equations of `overlay` split on the left tree, so unfold it whole
    unfold overlay
    by_cases h : emptyId = Obj.tree es
    · rw [if_pos h, h]
    · rw [if_neg h, if_pos rfl]

theorem overlay_blob_right {a : Obj} (ha : a ≠ emptyId) (d : List UInt8) :
    overlay a (.blob d) = a := by
  simp [overlay, ha]

/-- The merged objects of `overlay` for unique names: those of the names both sides have. -/
theorem overlayMods_fst (es₁ : List Entry) {es₂ : List Entry} (nodup : (es₂.map (·.1)).Nodup)
    (mods : String → Option Obj) (fresh : List Entry) (q : String) :
    (overlayMods es₁ es₂ mods fresh).1 q =
      match lookupEntry es₂ q, lookupEntry es₁ q with
      | some e₂, some e₁ => some (overlay e₁.2.2 e₂.2.2)
      | _, _ => mods q := by
  induction es₂ generalizing mods fresh with
  | nil => simp [overlayMods, lookupEntry]
  | cons e rest ih =>
    obtain ⟨n, m, o₂⟩ := e
    rw [List.map_cons, List.nodup_cons] at nodup
    have hn : lookupEntry rest n = none :=
      lookupEntry_eq_none.mpr (fun e he h => nodup.1 (List.mem_map.mpr ⟨e, he, h⟩))
    simp only [overlayMods, lookupEntry_cons]
    cases h₁ : lookupEntry es₁ n with
    | none =>
      dsimp only
      rw [ih nodup.2]
      by_cases hq : n = q
      · subst hq
        simp [hn, h₁]
      · simp [hq]
    | some e₁ =>
      obtain ⟨_, _, o₁⟩ := e₁
      dsimp only
      rw [ih nodup.2]
      by_cases hq : n = q
      · subst hq
        simp [hn, h₁, setMod]
      · simp [hq, setMod, Ne.symm hq]

/-- The entries `overlay` adds: those of `b` whose name `a` lacks, in the order of `b`. -/
theorem overlayMods_snd (es₁ es₂ : List Entry) (mods : String → Option Obj)
    (fresh : List Entry) :
    (overlayMods es₁ es₂ mods fresh).2 =
      fresh ++ es₂.filter (fun e => (lookupEntry es₁ e.1).isNone) := by
  induction es₂ generalizing mods fresh with
  | nil => simp [overlayMods]
  | cons e rest ih =>
    obtain ⟨n, m, o₂⟩ := e
    simp only [overlayMods]
    cases h₁ : lookupEntry es₁ n with
    | none => simp [ih, h₁]
    | some e₁ => simp [ih, h₁]

theorem lookupEntry_append (l₁ l₂ : List Entry) (q : String) :
    lookupEntry (l₁ ++ l₂) q = (lookupEntry l₁ q).or (lookupEntry l₂ q) := by
  simp [lookupEntry, List.find?_append]

/-- With unique names the entry found under a name does not depend on the order. -/
theorem lookupEntry_perm {l₁ l₂ : List Entry} (h : l₁ ~ l₂) (nodup : (l₁.map (·.1)).Nodup)
    (q : String) : lookupEntry l₁ q = lookupEntry l₂ q := by
  cases h₁ : lookupEntry l₁ q with
  | none =>
    refine (lookupEntry_eq_none.mpr fun e he => ?_).symm
    exact lookupEntry_eq_none.mp h₁ e (h.mem_iff.mpr he)
  | some e =>
    obtain ⟨he, rfl⟩ := lookupEntry_some h₁
    exact (lookupEntry_of_mem ((h.map _).nodup_iff.mp nodup) (h.mem_iff.mp he)).symm

/-- An entry of `a` after `overlay` merged it: its object replaced by the merged one. -/
def overlayUpd (mods : String → Option Obj) (e : Entry) : Entry :=
  match mods e.1 with
  | some o => (e.1, e.2.1, o)
  | none => e

theorem overlayUpd_key (mods : String → Option Obj) (e : Entry) :
    (overlayUpd mods e).1 = e.1 ∧ (overlayUpd mods e).2.1 = e.2.1 := by
  unfold overlayUpd
  split <;> simp

theorem overlay_tree_tree {es₁ es₂ : List Entry} (heq : Obj.tree es₁ ≠ .tree es₂)
    (h₁ : es₁ ≠ []) (h₂ : es₂ ≠ []) :
    overlay (.tree es₁) (.tree es₂) =
      .tree ((overlayMods es₁ es₂ (fun _ => none) []).2.foldl insertInOrder
        (es₁.map (overlayUpd (overlayMods es₁ es₂ (fun _ => none) []).1))) := by
  have hne : Obj.tree es₁ ≠ emptyId := fun h => h₁ (Obj.tree.inj h)
  rw [overlay, if_neg heq, if_neg hne, if_neg h₂]
  rfl

/-- The entries `overlay` builds have unique names: the new ones are missing from `a`. -/
theorem overlay_names_nodup {es₁ es₂ : List Entry} (w₁ : TreeWf es₁) (w₂ : TreeWf es₂)
    (mods : String → Option Obj) :
    ((es₁.map (overlayUpd mods) ++ es₂.filter (fun e => (lookupEntry es₁ e.1).isNone)).map
      (·.1)).Nodup := by
  rw [List.map_append, names_map_of_key (overlayUpd_key mods), List.nodup_append]
  refine ⟨w₁.nodup, w₂.nodup.sublist (List.filter_sublist.map _), ?_⟩
  intro n hn n' hn' h
  subst h
  obtain ⟨e₁, he₁, rfl⟩ := List.mem_map.mp hn
  obtain ⟨e₂, he₂, hname⟩ := List.mem_map.mp hn'
  have hnone := (List.mem_filter.mp he₂).2
  rw [hname, lookupEntry_of_mem w₁.nodup he₁] at hnone
  simp at hnone

/-- Under each name, the tree `overlay` builds has the merged entry of `a`, or else the entry
of `b`. -/
theorem lookupEntry_overlay {es₁ es₂ : List Entry} (w₁ : TreeWf es₁) (w₂ : TreeWf es₂)
    (q : String) :
    lookupEntry ((overlayMods es₁ es₂ (fun _ => none) []).2.foldl insertInOrder
        (es₁.map (overlayUpd (overlayMods es₁ es₂ (fun _ => none) []).1))) q =
      match lookupEntry es₁ q with
      | some e₁ => some (overlayUpd (overlayMods es₁ es₂ (fun _ => none) []).1 e₁)
      | none => lookupEntry es₂ q := by
  rw [overlayMods_snd, List.nil_append]
  rw [lookupEntry_perm (foldl_insertInOrder_perm _ _) (by
      simpa using (foldl_insertInOrder_perm _ _).symm.map (·.1) |>.nodup_iff.mp
        (overlay_names_nodup w₁ w₂ _)) q]
  rw [lookupEntry_append, lookupEntry_map _ (fun e => (overlayUpd_key _ e).1),
    lookupEntry_filter (fun n => (lookupEntry es₁ n).isNone)]
  cases lookupEntry es₁ q <;> simp

theorem overlay_isTree {a : Obj} (ha : a ≠ emptyId) (b : Obj) :
    (overlay a b).isTree = a.isTree := by
  cases a with
  | blob d => simp
  | tree es₁ =>
    cases b with
    | blob d => rw [overlay_blob_right ha]
    | tree es₂ => simp only [overlay]; split_ifs <;> rfl

theorem overlay_ne_emptyId {a : Obj} (ha : a ≠ emptyId) (b : Obj) : overlay a b ≠ emptyId := by
  cases a with
  | blob d => simp [emptyId]
  | tree es₁ =>
    cases b with
    | blob d => rwa [overlay_blob_right ha]
    | tree es₂ =>
      have h₁ : es₁ ≠ [] := fun h => ha (by rw [h]; rfl)
      by_cases heq : Obj.tree es₁ = .tree es₂
      · simpa [overlay, heq] using ha
      by_cases h₂ : es₂ = []
      · simp [overlay, ha, h₂]
      rw [overlay_tree_tree heq h₁ h₂]
      -- the merged entries are at least those of `a`
      intro h
      have hlen := (foldl_insertInOrder_perm (overlayMods es₁ es₂ (fun _ => none) []).2
        (es₁.map (overlayUpd (overlayMods es₁ es₂ (fun _ => none) []).1))).length_eq
      rw [Obj.tree.inj h] at hlen
      simp only [List.length_nil, List.length_append, List.length_map] at hlen
      have := List.length_pos_of_ne_nil h₁
      omega

/-- One name in `overlay`: the merged entry of the entries of that name, read on leaves. -/
theorem entryLeaves_overlay {e₁ e₂ : Entry} (w₁ : EntryWf e₁) (w₂ : EntryWf e₂)
    (ih : e₁.2.2.isTree → e₂.2.2.isTree → (overlay e₁.2.2 e₂.2.2).leaves =
      PathMap.overlay e₁.2.2.leaves e₂.2.2.leaves) :
    entryLeaves (e₁.2.1, overlay e₁.2.2 e₂.2.2) =
      PathMap.overlay (entryLeaves e₁.2) (entryLeaves e₂.2) := by
  obtain ⟨n₁, m₁, o₁⟩ := e₁
  obtain ⟨n₂, m₂, o₂⟩ := e₂
  cases o₁ with
  | blob d =>
    -- a file of `a` wins over anything of `b` under its name
    have hm : m₁.isTree = false := w₁.kind
    rw [overlay_blob_left]
    exact (overlay_eq_left fun p _ => covers_entryLeaves_of_not_tree hm _ p).symm
  | tree es₁ =>
    cases o₂ with
    | blob d =>
      -- a subtree of `a` wins over a file of `b`
      have hm : m₂.isTree = false := w₂.kind
      rw [overlay_blob_right w₁.nonempty]
      refine (overlay_eq_left fun p hp => ?_).symm
      rw [entryLeaves_of_not_tree hm _ p hp]
      exact w₁.covers_nil
    | tree es₂ =>
      have hm₁ : m₁ = .tree := Mode.isTree_iff.mp w₁.kind
      have hm₂ : m₂ = .tree := Mode.isTree_iff.mp w₂.kind
      subst hm₁ hm₂
      simp only [entryLeaves_tree]
      exact ih rfl rfl

/-- `overlay` keeps the leaves of `a` and adds those of `b` that no leaf of `a` is on the way
to or below. -/
theorem leaves_overlay (b : Obj) : ∀ a : Obj, a.wf → b.wf → a.isTree → b.isTree →
    (overlay a b).leaves = PathMap.overlay a.leaves b.leaves := by
  induction b with
  | blob d => intro a _ _ _ h; simp [Obj.isTree] at h
  | tree es₂ ih =>
    intro a wa wb ta _
    cases a with
    | blob d => simp [Obj.isTree] at ta
    | tree es₁ =>
      have w₁ := (wf_tree_iff es₁).mp wa
      have w₂ := (wf_tree_iff es₂).mp wb
      by_cases heq : Obj.tree es₁ = .tree es₂
      · rw [heq]
        simp [overlay]
      by_cases h₁ : es₁ = []
      · subst h₁
        have he : Obj.tree [] = emptyId := rfl
        rw [overlay, if_neg heq, if_pos he]
        simp
      by_cases h₂ : es₂ = []
      · subst h₂
        simp [overlay, heq, emptyId]
      rw [overlay_tree_tree heq h₁ h₂]
      apply ext_child (by simp [PathMap.overlay])
      intro q
      rw [overlay_child (leaves_root _)]
      simp only [child_leaves_tree]
      rw [lookupEntry_overlay w₁ w₂]
      have hm := overlayMods_fst es₁ w₂.nodup (fun _ => none) [] q
      cases l₁ : lookupEntry es₁ q with
      | none => simp
      | some e₁ =>
        obtain ⟨he₁, rfl⟩ := lookupEntry_some l₁
        cases l₂ : lookupEntry es₂ e₁.1 with
        | none =>
          rw [l₁, l₂] at hm
          simp [overlayUpd, hm]
        | some e₂ =>
          rw [l₁, l₂] at hm
          have he₂ := (lookupEntry_some l₂).1
          simp only [Option.elim_some, overlayUpd, hm]
          exact entryLeaves_overlay (w₁.entries e₁ he₁) (w₂.entries e₂ he₂)
            (ih e₂ he₂ e₁.2.2 (w₁.entries e₁ he₁).wf (w₂.entries e₂ he₂).wf)

/-- `overlay` of well-formed trees is well-formed. -/
theorem wf_overlay (b : Obj) : ∀ a : Obj, a.wf → b.wf → (overlay a b).wf := by
  induction b with
  | blob d =>
    intro a wa _
    simp only [overlay]
    split_ifs <;> first | exact wa | rfl
  | tree es₂ ih =>
    intro a wa wb
    cases a with
    | blob d => simp; rfl
    | tree es₁ =>
      have w₁ := (wf_tree_iff es₁).mp wa
      have w₂ := (wf_tree_iff es₂).mp wb
      by_cases heq : Obj.tree es₁ = .tree es₂
      · simpa [overlay, heq] using wa
      by_cases h₁ : es₁ = []
      · subst h₁
        have he : Obj.tree [] = emptyId := rfl
        rw [overlay, if_neg heq, if_pos he]
        exact wb
      by_cases h₂ : es₂ = []
      · simpa [overlay, heq, emptyId, h₁, h₂] using wa
      rw [overlay_tree_tree heq h₁ h₂, overlayMods_snd, List.nil_append]
      set mods := (overlayMods es₁ es₂ (fun _ => none) []).1 with hmods
      have nodup := overlay_names_nodup w₁ w₂ mods
      have hperm := foldl_insertInOrder_perm
        (es₂.filter (fun e => (lookupEntry es₁ e.1).isNone)) (es₁.map (overlayUpd mods))
      -- every entry of the merged list is a merged entry of `a` or an entry of `b`
      have entries : ∀ e ∈ es₁.map (overlayUpd mods) ++
          es₂.filter (fun e => (lookupEntry es₁ e.1).isNone), EntryWf e := by
        intro e he
        rcases List.mem_append.mp he with he | he
        · obtain ⟨e₁, he₁, rfl⟩ := List.mem_map.mp he
          have ew := w₁.entries e₁ he₁
          have hm := overlayMods_fst es₁ w₂.nodup (fun _ => none) [] e₁.1
          rw [lookupEntry_of_mem w₁.nodup he₁, ← hmods] at hm
          cases l₂ : lookupEntry es₂ e₁.1 with
          | none =>
            rw [l₂] at hm
            simpa [overlayUpd, hm] using ew
          | some e₂ =>
            rw [l₂] at hm
            have he₂ := (lookupEntry_some l₂).1
            simp only [overlayUpd, hm]
            exact ⟨ew.name, ew.kind.trans (overlay_isTree ew.nonempty _).symm,
              overlay_ne_emptyId ew.nonempty _, ih e₂ he₂ e₁.2.2 ew.wf (w₂.entries e₂ he₂).wf⟩
        · exact w₂.entries e (List.mem_filter.mp he).1
      refine (wf_tree_iff _).mpr ⟨?_, (hperm.map _).nodup_iff.mpr nodup,
        fun e he => entries e (hperm.mem_iff.mp he)⟩
      exact foldl_insertInOrder_sorted _ (sorted_map_of_key (overlayUpd_key mods) w₁.sorted) nodup
        fun x hx => (entries x hx).name

/-! ### The subtree at a path, and the tree around one -/

theorem descendEntry_some {e e' : Entry} {r : List String} (h : descendEntry e r = some e')
    (p : List String) : entryLeaves e'.2 p = entryLeaves e.2 (r ++ p) := by
  induction r generalizing e with
  | nil => simp [descendEntry] at h; rw [h]; rfl
  | cons n rest ih =>
    obtain ⟨nm, m, o⟩ := e
    simp only [descendEntry] at h
    split_ifs at h with hm
    cases o with
    | blob d => simp [Obj.entries?] at h
    | tree es =>
      simp only [Obj.entries?, Option.bind_eq_some_iff] at h
      obtain ⟨e₁, l₁, h₁⟩ := h
      rw [ih h₁, Mode.isTree_iff.mp hm, entryLeaves_tree, List.cons_append, leaves_cons_path, l₁]
      rfl

theorem descendEntry_none {e : Entry} {r : List String} (h : descendEntry e r = none)
    (p : List String) : entryLeaves e.2 (r ++ p) = none := by
  induction r generalizing e with
  | nil => simp [descendEntry] at h
  | cons n rest ih =>
    obtain ⟨nm, m, o⟩ := e
    simp only [descendEntry] at h
    by_cases hm : m.isTree
    · rw [if_pos hm] at h
      rw [Mode.isTree_iff.mp hm, entryLeaves_tree]
      cases o with
      | blob d => rfl
      | tree es =>
        simp only [Obj.entries?, Option.bind_eq_none_iff] at h
        rw [List.cons_append, leaves_cons_path]
        cases l₁ : lookupEntry es n with
        | none => rfl
        | some e₁ => exact ih (h e₁ l₁)
    · -- the path runs on below a file
      simp [entryLeaves, hm]

theorem getPathEntry_eq_descendEntry (t : Obj) (x : List String) (hx : x ≠ []) :
    getPathEntry t x = descendEntry ("", .tree, t) x := by
  obtain ⟨n, rest, rfl⟩ := List.exists_cons_of_ne_nil hx
  rfl

/-- The subtree `Subdir` takes at a path holds what lay below that path. -/
theorem leaves_getPathEntry {t : Obj} {x : List String} (hx : x ≠ []) {e : Entry}
    (h : getPathEntry t x = some e) (ht : e.2.1.isTree) : e.2.2.leaves = move x [] t.leaves := by
  rw [getPathEntry_eq_descendEntry t x hx] at h
  obtain ⟨n, m, o⟩ := e
  funext p
  cases p with
  | nil => simp
  | cons q qs =>
    have := descendEntry_some h (q :: qs)
    dsimp only at ht this ⊢
    rw [Mode.isTree_iff.mp ht, entryLeaves_tree, entryLeaves_tree] at this
    rw [this, ← List.nil_append (q :: qs), move_apply_append x [] _ _ (by simp)]
    rfl

/-- Nothing lies below a path with no subtree. -/
theorem move_eq_empty_of_getPathEntry {t : Obj} {x : List String} (hx : x ≠ [])
    (h : ∀ e, getPathEntry t x = some e → e.2.1.isTree = false) : move x [] t.leaves = empty := by
  rw [getPathEntry_eq_descendEntry t x hx] at h
  funext p
  cases p with
  | nil => simp [empty]
  | cons q qs =>
    rw [← List.nil_append (q :: qs), move_apply_append x [] _ _ (by simp)]
    have root := entryLeaves_tree t
    cases hd : descendEntry ("", .tree, t) x with
    | none => simpa [← root, empty] using descendEntry_none hd (q :: qs)
    | some e =>
      obtain ⟨n, m, o⟩ := e
      have := descendEntry_some hd (q :: qs)
      rw [entryLeaves_cons_of_not_tree (h _ hd)] at this
      rw [← root]
      exact this.symm

/-- What `get_path_entry` finds in a well-formed tree is well-formed, of a mode telling its
kind. -/
theorem wf_of_descendEntry {e e' : Entry} {r : List String} (we : e.2.2.wf)
    (ke : e.2.1.isTree = e.2.2.isTree) (h : descendEntry e r = some e') :
    e'.2.2.wf ∧ e'.2.1.isTree = e'.2.2.isTree := by
  induction r generalizing e with
  | nil => simp [descendEntry] at h; rw [← h]; exact ⟨we, ke⟩
  | cons n rest ih =>
    obtain ⟨nm, m, o⟩ := e
    simp only [descendEntry] at h
    split_ifs at h with hm
    cases o with
    | blob d => simp [Obj.entries?] at h
    | tree es =>
      simp only [Obj.entries?, Option.bind_eq_some_iff] at h
      obtain ⟨e₁, l₁, h₁⟩ := h
      have w := ((wf_tree_iff es).mp we).entries e₁ (lookupEntry_some l₁).1
      exact ih w.wf w.kind h₁

theorem wf_of_getPathEntry {t : Obj} {x : List String} (hx : x ≠ []) (ct : Canonical t)
    {e : Entry} (h : getPathEntry t x = some e) : e.2.2.wf ∧ e.2.1.isTree = e.2.2.isTree := by
  rw [getPathEntry_eq_descendEntry t x hx] at h
  exact wf_of_descendEntry (e := ("", .tree, t)) ct.wf ct.isTree.symm h

/-- The tree with `t` at path `y` and nothing else; a path to the empty tree is empty. -/
def pathTree : List String → Obj → Obj
  | [], t => t
  | n :: rest, t =>
    let s := pathTree rest t
    if s = emptyId then emptyId else .tree [(n, .tree, s)]

theorem pathTree_append (a b : List String) (t : Obj) :
    pathTree (a ++ b) t = pathTree a (pathTree b t) := by
  induction a with
  | nil => rfl
  | cons n rest ih => simp only [List.cons_append, pathTree, ih]

theorem descendParent_emptyId (cs : List String) : descendParent emptyId cs = emptyId := by
  induction cs with
  | nil => rfl
  | cons c cs ih => simpa [descendParent, emptyId, Obj.entries?, lookupEntry] using ih

theorem replaceChildInner_emptyId (name : String) (o : Obj) (mode : Mode) :
    replaceChildInner name (some o) mode emptyId =
      if o = emptyId then emptyId else .tree [(name, mode, o)] := by
  have entries : emptyId.entries? = some [] := rfl
  by_cases ho : o = emptyId
  · subst ho
    rfl
  · rw [if_neg ho]
    simp [replaceChildInner, ho, entries, insertInOrder, insertInOrderRev]

/-- `insert_oid` into the empty tree, by the path read from its last component. -/
theorem insertOidRev_emptyId (rev : List String) (hr : rev ≠ []) (o : Obj) :
    insertOidRev emptyId rev (some o) .tree = .ok (pathTree rev.reverse o) := by
  induction rev generalizing o with
  | nil => exact absurd rfl hr
  | cons name parentRev ih =>
    have single : pathTree [name] o = if o = emptyId then emptyId else .tree [(name, .tree, o)] :=
      rfl
    cases parentRev with
    | nil => simp only [insertOidRev, replaceChildInner_emptyId, List.reverse_singleton, single]
    | cons p ps =>
      -- the subtree built so far goes one level up, into a parent read from the empty tree
      have hrev : (name :: p :: ps).reverse = (p :: ps).reverse ++ [name] := List.reverse_cons
      simp only [insertOidRev]
      rw [descendParent_emptyId, replaceChildInner_emptyId, ← single, ih (List.cons_ne_nil p ps),
        hrev, pathTree_append]

/-- `Prefix` builds the tree around its input: `insert_oid` into the empty tree. -/
theorem insertOid_emptyId {y : List String} (hy : y ≠ []) (o : Obj) :
    insertOid emptyId y (some o) .tree = .ok (pathTree y o) := by
  unfold insertOid
  rw [insertOidRev_emptyId _ (by simpa using hy) o, List.reverse_reverse]

theorem leaves_pathTree (y : List String) (t : Obj) :
    (pathTree y t).leaves = move [] y t.leaves := by
  induction y with
  | nil => exact (move_nil_nil (leaves_root t)).symm
  | cons n rest ih =>
    funext p
    cases p with
    | nil => simp
    | cons q qs =>
      rw [move_cons_cons, ← ih]
      simp only [pathTree]
      split_ifs with hs hq hq
      · simp [hs, empty]
      · simp [empty]
      · simp [leaves_cons_path, lookupEntry_cons, hq, entryLeaves_tree]
      · simp [leaves_cons_path, hq, lookupEntry]

theorem wf_pathTree {y : List String} (hy : ∀ c ∈ y, ValidName c) {t : Obj} (wt : t.wf)
    (tt : t.isTree) : (pathTree y t).wf ∧ (pathTree y t).isTree := by
  induction y with
  | nil => exact ⟨wt, tt⟩
  | cons n rest ih =>
    obtain ⟨ws, ts⟩ := ih fun c hc => hy c (.tail _ hc)
    simp only [pathTree]
    split_ifs with hs
    · exact ⟨rfl, rfl⟩
    · refine ⟨(wf_tree_iff _).mpr ⟨by simp, by simp, ?_⟩, rfl⟩
      intro e he
      rw [List.mem_singleton] at he
      subst he
      exact ⟨hy n List.mem_cons_self, ts.symm, hs, ws⟩

theorem canonical_overlay {a b : Obj} (ca : Canonical a) (cb : Canonical b) :
    Canonical (overlay a b) := by
  refine ⟨wf_overlay b a ca.wf cb.wf, ?_⟩
  by_cases ha : a = emptyId
  · rw [ha, overlay_emptyId_left]
    exact cb.isTree
  · rw [overlay_isTree ha]
    exact ca.isTree

theorem canonical_subtract {a b : Obj} (ca : Canonical a) (cb : Canonical b) :
    Canonical (subtract a b) :=
  ⟨wf_subtract b a ca.wf cb.wf, subtract_isTree a b⟩

theorem Canonical.leaves_overlay {a b : Obj} (ca : Canonical a) (cb : Canonical b) :
    (overlay a b).leaves = PathMap.overlay a.leaves b.leaves :=
  Josh.leaves_overlay b a ca.wf cb.wf ca.isTree cb.isTree

theorem Canonical.leaves_subtract {a b : Obj} (ca : Canonical a) (cb : Canonical b) :
    (subtract a b).leaves = PathMap.subtract a.leaves b.leaves :=
  Josh.leaves_subtract b a ca.wf cb.wf cb.isTree

end Josh
