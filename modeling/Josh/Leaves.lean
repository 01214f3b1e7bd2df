import Josh.Tree
import Josh.Lib.PathMap
import Mathlib.Data.Char
import Mathlib.Data.List.Lex
import Mathlib.Data.List.Sort

/-! The well-formed trees git writes, and the meaning of a tree as the map from each path to
the leaf (mode and blob) stored there. Two well-formed trees with the same leaves are the same
tree, so a tree operation is specified by what it does to leaves. -/

namespace Josh

open PathMap

/-! ### The order of entries -/

/-- A name git accepts in a tree: not empty, no '/' and no NUL. -/
def ValidName (n : String) : Prop := n ≠ "" ∧ '/' ∉ n.toList ∧ '\x00' ∉ n.toList

instance : DecidablePred ValidName := fun n => by unfold ValidName; infer_instance

def EntryLt (a b : Entry) : Prop := entryCmp a b = .lt

instance : DecidableRel EntryLt := fun a b => by unfold EntryLt; infer_instance

theorem gitTreeEntryCmp_swap (a : List Char) (aTree : Bool) (b : List Char) (bTree : Bool) :
    (gitTreeEntryCmp a aTree b bTree).swap = gitTreeEntryCmp b bTree a aTree := by
  induction a generalizing b with
  | nil => cases b <;> exact Std.OrientedOrd.eq_swap.symm
  | cons c a ih =>
    cases b with
    | nil => exact Std.OrientedOrd.eq_swap.symm
    | cons d b =>
      rw [gitTreeEntryCmp, gitTreeEntryCmp]
      by_cases hcd : c < d
      · simp [hcd, not_lt_of_gt hcd]
      · by_cases hdc : d < c
        · simp [hcd, hdc]
        · simp [hcd, hdc, ih]

theorem entryLt_asymm {a b : Entry} (h : EntryLt a b) : ¬ EntryLt b a := by
  unfold EntryLt entryCmp at *
  rw [← gitTreeEntryCmp_swap, h]
  decide

instance : Std.Irrefl EntryLt := ⟨fun _ h => entryLt_asymm h h⟩

instance : Std.Antisymm EntryLt := ⟨fun _ _ h h' => absurd h' (entryLt_asymm h)⟩

/-- For names without '/' and NUL the git order is the order of the names each extended by
the byte `git_tree_entry_cmp` reads past its end. -/
theorem gitTreeEntryCmp_eq_lt_iff {a b : List Char} (ha : '/' ∉ a ∧ '\x00' ∉ a)
    (hb : '/' ∉ b ∧ '\x00' ∉ b) (aTree bTree : Bool) :
    gitTreeEntryCmp a aTree b bTree = .lt ↔ a ++ [nameEnd aTree] < b ++ [nameEnd bTree] := by
  induction a generalizing b with
  | nil =>
    cases b with
    | nil => simp [gitTreeEntryCmp, List.cons_lt_cons_iff, compare_lt_iff_lt]
    | cons d b =>
      -- the next byte of `b` is never the end marker of `a`
      have hd : nameEnd aTree ≠ d := by
        cases aTree <;> simp [nameEnd] <;> rintro rfl <;> simp at hb
      simp [gitTreeEntryCmp, List.cons_lt_cons_iff, compare_lt_iff_lt, hd]
  | cons c a ih =>
    cases b with
    | nil =>
      have hc : c ≠ nameEnd bTree := by
        cases bTree <;> simp [nameEnd] <;> rintro rfl <;> simp at ha
      simp [gitTreeEntryCmp, List.cons_lt_cons_iff, compare_lt_iff_lt, hc]
    | cons d b =>
      have ih' := ih (b := b) (by simp_all) (by simp_all)
      rw [gitTreeEntryCmp]
      by_cases hcd : c < d
      · simp [hcd, List.cons_lt_cons_iff]
      · by_cases hdc : d < c
        · simp [hcd, hdc, List.cons_lt_cons_iff, ne_of_gt hdc]
        · have : c = d := le_antisymm (not_lt.mp hdc) (not_lt.mp hcd)
          simp [this, ih']

/-- The bytes that order an entry: its name, then the byte read past its end. -/
def entryKey (e : Entry) : List Char := e.1.toList ++ [nameEnd e.2.1.isTree]

theorem entryLt_iff {a b : Entry} (ha : ValidName a.1) (hb : ValidName b.1) :
    EntryLt a b ↔ entryKey a < entryKey b :=
  gitTreeEntryCmp_eq_lt_iff ⟨ha.2.1, ha.2.2⟩ ⟨hb.2.1, hb.2.2⟩ _ _

theorem entryLt_trans {a b c : Entry} (ha : ValidName a.1) (hb : ValidName b.1)
    (hc : ValidName c.1) (hab : EntryLt a b) (hbc : EntryLt b c) : EntryLt a c := by
  rw [entryLt_iff ha hb] at hab
  rw [entryLt_iff hb hc] at hbc
  exact (entryLt_iff ha hc).mpr (List.lt_trans hab hbc)

/-! ### Well-formed trees -/

def Obj.isTree : Obj → Bool
  | .tree _ => true
  | .blob _ => false

mutual
/-- What `git fsck` asks of a tree, recursively: entries sorted by `git_tree_entry_cmp`, unique
valid names, the mode of each entry telling its object's kind, and no empty subtree. -/
def Obj.wf : Obj → Bool
  | .blob _ => true
  | .tree es => decide (es.Pairwise EntryLt) && decide (es.map (·.1)).Nodup && entriesWf es
def entriesWf : List Entry → Bool
  | [] => true
  | (n, m, o) :: rest =>
    decide (ValidName n) && m.isTree == o.isTree && o != emptyId && o.wf && entriesWf rest
end

structure EntryWf (e : Entry) : Prop where
  name : ValidName e.1
  kind : e.2.1.isTree = e.2.2.isTree
  nonempty : e.2.2 ≠ emptyId
  wf : e.2.2.wf = true

structure TreeWf (es : List Entry) : Prop where
  sorted : es.Pairwise EntryLt
  nodup : (es.map (·.1)).Nodup
  entries : ∀ e ∈ es, EntryWf e

theorem entriesWf_iff (es : List Entry) : entriesWf es = true ↔ ∀ e ∈ es, EntryWf e := by
  induction es with
  | nil => simp [entriesWf]
  | cons e rest ih =>
    obtain ⟨n, m, o⟩ := e
    simp only [entriesWf, Bool.and_eq_true, decide_eq_true_eq, beq_iff_eq, bne_iff_ne, ne_eq,
      ih, List.mem_cons, forall_eq_or_imp]
    constructor
    · rintro ⟨⟨⟨⟨hn, hk⟩, he⟩, hw⟩, hr⟩
      exact ⟨⟨hn, hk, he, hw⟩, hr⟩
    · rintro ⟨⟨hn, hk, he, hw⟩, hr⟩
      exact ⟨⟨⟨⟨hn, hk⟩, he⟩, hw⟩, hr⟩

theorem wf_tree_iff (es : List Entry) : (Obj.tree es).wf = true ↔ TreeWf es := by
  simp only [Obj.wf, Bool.and_eq_true, decide_eq_true_eq, entriesWf_iff]
  exact ⟨fun ⟨⟨s, n⟩, e⟩ => ⟨s, n, e⟩, fun ⟨s, n, e⟩ => ⟨⟨s, n⟩, e⟩⟩

/-! ### Lookup by name -/

theorem lookupEntry_cons (e : Entry) (es : List Entry) (q : String) :
    lookupEntry (e :: es) q = if e.1 = q then some e else lookupEntry es q := by
  by_cases h : e.1 = q <;> simp [lookupEntry, h]

theorem lookupEntry_eq_none {es : List Entry} {q : String} :
    lookupEntry es q = none ↔ ∀ e ∈ es, e.1 ≠ q := by
  simp [lookupEntry, List.find?_eq_none]

theorem lookupEntry_some {es : List Entry} {q : String} {e : Entry}
    (h : lookupEntry es q = some e) : e ∈ es ∧ e.1 = q :=
  ⟨List.mem_of_find?_eq_some h, by simpa using List.find?_some h⟩

/-- With unique names, the entry found under a name is the one entry of that name. -/
theorem lookupEntry_of_mem {es : List Entry} (nodup : (es.map (·.1)).Nodup) {e : Entry}
    (he : e ∈ es) : lookupEntry es e.1 = some e := by
  induction es with
  | nil => cases he
  | cons x xs ih =>
    rw [List.map_cons, List.nodup_cons] at nodup
    rw [lookupEntry_cons]
    rcases List.mem_cons.mp he with rfl | he
    · simp
    · have hx : x.1 ≠ e.1 := fun h => nodup.1 (h ▸ List.mem_map_of_mem he)
      simp [hx, ih nodup.2 he]

/-! ### Leaves -/

mutual
/-- The leaves of an object: for each path of a tree to a non-tree entry, its mode and object. -/
def Obj.leaves : Obj → Map String (Mode × Obj)
  | .blob _, _ => none
  | .tree es, p => entriesLeaves es p
/-- The leaves below a list of entries: the first entry of the path's first name is entered. -/
def entriesLeaves : List Entry → Map String (Mode × Obj)
  | [], _ => none
  | _ :: _, [] => none
  | (n, mo) :: rest, q :: qs => if n = q then entryLeaves mo qs else entriesLeaves rest (q :: qs)
/-- The leaves of an entry: those of its tree, or itself at the empty path. -/
def entryLeaves : Mode × Obj → Map String (Mode × Obj)
  | (m, o), p => if m.isTree then o.leaves p else if p = [] then some (m, o) else none
end

theorem entriesLeaves_nil_path (es : List Entry) : entriesLeaves es [] = none := by
  cases es <;> rfl

@[simp] theorem leaves_root (o : Obj) : o.leaves [] = none := by
  cases o with
  | blob d => rfl
  | tree es => exact entriesLeaves_nil_path es

/-- Below a name, the leaves of a list of entries are those of the first entry of that name. -/
theorem child_entriesLeaves (es : List Entry) (q : String) :
    child (entriesLeaves es) q = (lookupEntry es q).elim empty (fun e => entryLeaves e.2) := by
  induction es with
  | nil => rfl
  | cons e rest ih =>
    obtain ⟨n, mo⟩ := e
    funext qs
    rw [lookupEntry_cons]
    by_cases h : n = q
    · simp [child, entriesLeaves, h]
    · simpa [child, entriesLeaves, h] using congrFun ih qs

theorem leaves_cons_path (es : List Entry) (q : String) (qs : List String) :
    (Obj.tree es).leaves (q :: qs) = (lookupEntry es q).elim none (fun e => entryLeaves e.2 qs) := by
  have := congrFun (child_entriesLeaves es q) qs
  cases h : lookupEntry es q <;> simp_all [child, Obj.leaves, empty]

theorem entryLeaves_tree (o : Obj) : entryLeaves (.tree, o) = o.leaves := by
  funext p
  simp [entryLeaves, Mode.isTree]

theorem leaves_prefixFree (o : Obj) :
    ∀ p q, (o.leaves p).isSome → (o.leaves q).isSome → p <+: q → p = q := by
  induction o with
  | blob d => simp [Obj.leaves]
  | tree es ih =>
    rintro (_ | ⟨a, p⟩) q hp hq hpq
    · simp at hp
    · obtain ⟨q, rfl⟩ : ∃ q', q = a :: q' := by
        obtain ⟨t, rfl⟩ := hpq
        exact ⟨p ++ t, rfl⟩
      have hpq' : p <+: q := (List.cons_prefix_cons.mp hpq).2
      rw [leaves_cons_path] at hp hq
      cases hl : lookupEntry es a with
      | none => simp [hl] at hp
      | some e =>
        obtain ⟨n, m, o⟩ := e
        have he := (lookupEntry_some hl).1
        rw [hl, Option.elim_some] at hp hq
        -- a tree entry is entered, any other entry is a leaf at the empty path only
        cases hm : m.isTree
        · simp only [entryLeaves, hm] at hp hq
          simp_all
        · simp only [entryLeaves, hm, if_true] at hp hq
          rw [ih _ he p q hp hq hpq']

theorem valid_leaves (o : Obj) : Valid o.leaves := ⟨leaves_root o, leaves_prefixFree o⟩

theorem Mode.isTree_iff {m : Mode} : m.isTree = true ↔ m = .tree := by
  cases m <;> simp [Mode.isTree]

/-- A well-formed entry has a leaf: its subtrees are not empty. -/
theorem exists_entryLeaves_isSome (o : Obj) :
    ∀ m : Mode, m.isTree = o.isTree → o.wf = true → o ≠ emptyId →
      ∃ p, (entryLeaves (m, o) p).isSome := by
  induction o with
  | blob d =>
    intro m hm _ _
    exact ⟨[], by simp [entryLeaves, hm, Obj.isTree]⟩
  | tree es ih =>
    intro m hm wf ne
    obtain ⟨_, _, entries⟩ := (wf_tree_iff es).mp wf
    cases es with
    | nil => exact absurd rfl ne
    | cons e rest =>
      have ew := entries e (List.mem_cons_self ..)
      obtain ⟨p, hp⟩ := ih e (List.mem_cons_self ..) e.2.1 ew.kind ew.wf ew.nonempty
      refine ⟨e.1 :: p, ?_⟩
      rw [Mode.isTree_iff.mp (hm.trans rfl), entryLeaves_tree, leaves_cons_path,
        lookupEntry_cons, if_pos rfl, Option.elim_some]
      exact hp

/-- An entry is determined by its leaves, given that its tree is by its own. -/
theorem entryLeaves_inj {m₁ m₂ : Mode} {o₁ o₂ : Obj} (k₁ : m₁.isTree = o₁.isTree)
    (k₂ : m₂.isTree = o₂.isTree) (ih : o₁.isTree → o₂.isTree → o₁.leaves = o₂.leaves → o₁ = o₂)
    (h : entryLeaves (m₁, o₁) = entryLeaves (m₂, o₂)) : (m₁, o₁) = (m₂, o₂) := by
  have root := congrFun h []
  cases t₁ : m₁.isTree <;> cases t₂ : m₂.isTree
  · simpa [entryLeaves, t₁, t₂] using root
  · simp [entryLeaves, t₁, t₂] at root
  · simp [entryLeaves, t₁, t₂] at root
  · have same : o₁ = o₂ := ih (k₁ ▸ t₁) (k₂ ▸ t₂) (by simpa [entryLeaves, t₁, t₂] using h)
    rw [Mode.isTree_iff.mp t₁, Mode.isTree_iff.mp t₂, same]

/-- An entry of one tree has an entry of the same name and leaves in any tree of the same
leaves. -/
theorem lookupEntry_of_leaves_eq {es₁ es₂ : List Entry} (wf₂ : TreeWf es₂)
    (h : entriesLeaves es₁ = entriesLeaves es₂) {e₂ : Entry} (he : e₂ ∈ es₂) :
    ∃ e₁, lookupEntry es₁ e₂.1 = some e₁ ∧ entryLeaves e₁.2 = entryLeaves e₂.2 := by
  have hc := congrArg (child · e₂.1) h
  simp only [child_entriesLeaves, lookupEntry_of_mem wf₂.nodup he, Option.elim] at hc
  have ew := wf₂.entries e₂ he
  obtain ⟨p, hp⟩ := exists_entryLeaves_isSome e₂.2.2 e₂.2.1 ew.kind ew.wf ew.nonempty
  cases hl : lookupEntry es₁ e₂.1 with
  | none =>
    rw [hl] at hc
    simp [← hc, empty] at hp
  | some e₁ =>
    rw [hl] at hc
    exact ⟨e₁, rfl, hc⟩

/-- Well-formed trees with the same leaves are equal: a tree is its set of leaves. -/
theorem eq_of_leaves_eq (a : Obj) :
    ∀ b : Obj, a.wf → b.wf → a.isTree → b.isTree → a.leaves = b.leaves → a = b := by
  induction a with
  | blob d => simp [Obj.isTree]
  | tree es₁ ih =>
    intro b wa wb _ tb h
    cases b with
    | blob d => simp [Obj.isTree] at tb
    | tree es₂ =>
      have w₁ := (wf_tree_iff es₁).mp wa
      have w₂ := (wf_tree_iff es₂).mp wb
      have h' : entriesLeaves es₁ = entriesLeaves es₂ := h
      -- the same entry of the same name on both sides, by the entry's own extensionality
      have same : ∀ e₁ ∈ es₁, ∀ e₂, EntryWf e₂ → e₂.1 = e₁.1 →
          entryLeaves e₁.2 = entryLeaves e₂.2 → e₁ = e₂ := by
        intro e₁ he₁ e₂ ew₂ hn hl
        have ew₁ := w₁.entries e₁ he₁
        have key := entryLeaves_inj ew₁.kind ew₂.kind
          (fun t₁ t₂ hl => ih e₁ he₁ e₂.2.2 ew₁.wf ew₂.wf t₁ t₂ hl) hl
        exact Prod.ext hn.symm key
      congr 1
      refine List.Pairwise.eq_of_mem_iff w₁.sorted w₂.sorted (fun e => ⟨fun he => ?_, fun he => ?_⟩)
      · obtain ⟨e₂, hl, hle⟩ := lookupEntry_of_leaves_eq w₁ h'.symm he
        obtain ⟨he₂, hn⟩ := lookupEntry_some hl
        rwa [same e he e₂ (w₂.entries e₂ he₂) hn hle.symm]
      · obtain ⟨e₁, hl, hle⟩ := lookupEntry_of_leaves_eq w₂ h' he
        obtain ⟨he₁, hn⟩ := lookupEntry_some hl
        rwa [← same e₁ he₁ e (w₂.entries e he) hn.symm hle]

/-- A tree as git writes it: a well-formed tree object. -/
structure Canonical (t : Obj) : Prop where
  wf : t.wf = true
  isTree : t.isTree = true

theorem Canonical.eq_of_leaves_eq {a b : Obj} (ca : Canonical a) (cb : Canonical b)
    (h : a.leaves = b.leaves) : a = b :=
  Josh.eq_of_leaves_eq a b ca.wf cb.wf ca.isTree cb.isTree h

theorem canonical_emptyId : Canonical emptyId := ⟨rfl, rfl⟩

end Josh
