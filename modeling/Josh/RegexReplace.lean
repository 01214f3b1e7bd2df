import Josh.Reloc

/-! `regex_replace` of `josh-core/src/filter/tree.rs`, which `apply` runs once for each
`(regex, replacement)` pair of a `RegexReplace` filter. Every blob of the tree is read through
`blob_text`, rewritten by the regex and written back; subtrees are rewritten in turn and dropped
when they come out empty, and gitlinks are dropped. The regex crate's `replacen(text, 0,
replacement)` is left open as `replaceAll`. `blob_text` reads a blob holding a NUL byte, or
one that is not UTF-8, as the empty string, so such a blob is written back empty. -/

namespace Josh

/-- `blob_text`: the text of a blob; the empty string for one holding a NUL byte, for one that
is not UTF-8, and for an object that is not a blob. -/
def blobText : Obj → String
  | .blob bytes => if 0 ∈ bytes then "" else (String.fromUTF8? ⟨bytes.toArray⟩).getD ""
  | .tree _ => ""

section Inner

variable (replaceAll : String → String)

mutual
/-- `regex_replace_inner`. Entry names are strings here, so the check that they are UTF-8
always passes. -/
def regexReplaceInner : Obj → Except String Obj
  | .blob _ => .error "regex_replace: not a tree"
  | .tree es => do .ok (.tree (← regexReplaceEntries es))
/-- The loop of `regex_replace_inner` over the entries, in order. -/
def regexReplaceEntries : List Entry → Except String (List Entry)
  | [] => .ok []
  | (name, mode, o) :: rest =>
    if mode.isTree then do
      let s ← regexReplaceInner o
      let out ← regexReplaceEntries rest
      .ok (if s ≠ emptyId then (name, mode, s) :: out else out)
    else if mode = .commit then regexReplaceEntries rest
    else do
      let out ← regexReplaceEntries rest
      .ok ((name, mode, textBlob (replaceAll (blobText o))) :: out)
end

end Inner

/-- The environment whose `regex_replace` is the walk above, with `sem regex replacement` the
regex crate's replace-all. -/
def ApplyEnv.withRegex (env : ApplyEnv) (sem : Regex → String → String → String) : ApplyEnv :=
  { env with regexReplace := fun regex replacement => regexReplaceInner (sem regex replacement) }

/-- What becomes of a leaf: a gitlink is dropped, any other blob holds its rewritten text. -/
def replaceLeaf (replaceAll : String → String) : Mode × Obj → Option (Mode × Obj)
  | (m, o) => if m = .commit then none else some (m, textBlob (replaceAll (blobText o)))

section Leaves

variable {replaceAll : String → String}

theorem entriesLeaves_of_not_mem {es : List Entry} {q : String} (h : q ∉ es.map (·.1))
    (qs : List String) : entriesLeaves es (q :: qs) = none := by
  have := leaves_cons_path es q qs
  rw [lookupEntry_eq_none.mpr fun e he same => h (by rw [← same]; exact List.mem_map_of_mem he)]
    at this
  exact this

/-- The leaves of a non-tree entry are the entry itself, at the empty path. -/
theorem entryLeaves_bind_replaceLeaf {m : Mode} (hm : m.isTree = false) (o : Obj)
    (qs : List String) :
    (entryLeaves (m, o) qs).bind (replaceLeaf replaceAll) =
      if qs = [] then replaceLeaf replaceAll (m, o) else none := by
  by_cases hq : qs = [] <;> simp [entryLeaves, hm, hq]

/-- The rewritten entries have the leaves of the input, each rewritten by `replaceLeaf`, given
that every entry's object has that law (the induction hypothesis over the tree) and the names
are unique. -/
theorem entriesLeaves_regexReplaceEntries :
    ∀ (es out : List Entry),
      (∀ e ∈ es, ∀ s, regexReplaceInner replaceAll e.2.2 = .ok s →
        ∀ p, s.leaves p = (e.2.2.leaves p).bind (replaceLeaf replaceAll)) →
      (es.map (·.1)).Nodup → regexReplaceEntries replaceAll es = .ok out →
      ∀ p, entriesLeaves out p = (entriesLeaves es p).bind (replaceLeaf replaceAll)
  | [], out, _, _, h, p => by
    obtain rfl : [] = out := by simpa [regexReplaceEntries] using h
    rfl
  | (n, m, o) :: rest, out, ih, nodup, h, p => by
    rcases p with _ | ⟨q, qs⟩
    · simp [entriesLeaves_nil_path]
    rw [List.map_cons, List.nodup_cons] at nodup
    have recurse := fun out' hout' =>
      entriesLeaves_regexReplaceEntries rest out' (fun e he => ih e (List.mem_cons_of_mem _ he))
        nodup.2 hout' (q :: qs)
    -- below the entry's own name, the rest of the entries has no leaf
    have absent : n = q → entriesLeaves rest (q :: qs) = none := fun same =>
      entriesLeaves_of_not_mem (same ▸ nodup.1) qs
    by_cases hm : m.isTree
    · simp only [regexReplaceEntries, hm, if_true] at h
      obtain ⟨s, hs, h⟩ := Except.bind_eq_ok.mp h
      obtain ⟨out', hout', h⟩ := Except.bind_eq_ok.mp h
      obtain rfl := (Except.ok.inj h).symm
      have sub := ih (n, m, o) List.mem_cons_self s hs qs
      by_cases hn : n = q
      · subst hn
        by_cases empty : s = emptyId
        · subst empty
          have nothing : emptyId.leaves qs = none := by cases qs <;> rfl
          rw [nothing] at sub
          simp only [ne_eq, not_true_eq_false, if_false, recurse out' hout', absent rfl,
            Option.bind_none, entriesLeaves, if_true, entryLeaves, hm]
          exact sub
        · simp [entriesLeaves, entryLeaves, hm, empty, sub]
      · have := recurse out' hout'
        split <;> simp_all [entriesLeaves]
    · have hm' : m.isTree = false := by simpa using hm
      by_cases hc : m = .commit
      · simp only [regexReplaceEntries, hc, if_true] at h
        by_cases hn : n = q
        · subst hn hc
          rw [recurse out h, absent rfl, entriesLeaves, if_pos rfl,
            entryLeaves_bind_replaceLeaf hm']
          simp [replaceLeaf]
        · simp [entriesLeaves, hn, recurse out h]
      · simp only [regexReplaceEntries, hm, if_false, hc] at h
        obtain ⟨out', hout', h⟩ := Except.bind_eq_ok.mp h
        obtain rfl := (Except.ok.inj h).symm
        by_cases hn : n = q
        · subst hn
          rw [entriesLeaves, if_pos rfl, entriesLeaves, if_pos rfl,
            entryLeaves_bind_replaceLeaf hm']
          by_cases hq : qs = [] <;> simp [entryLeaves, hm', hq, replaceLeaf, hc]
        · simp [entriesLeaves, hn, recurse out' hout']

/-- The rewritten tree has the leaves of the input, each rewritten by `replaceLeaf`: a blob
holds the replace-all of its text, a gitlink is gone. -/
theorem leaves_regexReplaceInner (o : Obj) :
    o.wf → ∀ s, regexReplaceInner replaceAll o = .ok s →
      ∀ p, s.leaves p = (o.leaves p).bind (replaceLeaf replaceAll) := by
  induction o with
  | blob d => intro _ s h; simp [regexReplaceInner] at h
  | tree es ih =>
    intro wf s h p
    obtain ⟨_, nodup, entries⟩ := (wf_tree_iff es).mp wf
    obtain ⟨out, hout, h⟩ := Except.bind_eq_ok.mp h
    obtain rfl := Except.ok.inj h
    exact entriesLeaves_regexReplaceEntries es out
      (fun e he => ih e he (entries e he).wf) nodup hout p

theorem regexReplaceEntries_ok :
    ∀ es : List Entry, (∀ e ∈ es, e.2.1.isTree → ∃ s, regexReplaceInner replaceAll e.2.2 = .ok s) →
      ∃ out, regexReplaceEntries replaceAll es = .ok out
  | [], _ => ⟨[], rfl⟩
  | (n, m, o) :: rest, h => by
    obtain ⟨out, hout⟩ := regexReplaceEntries_ok rest fun e he => h e (List.mem_cons_of_mem _ he)
    by_cases hm : m.isTree
    · obtain ⟨s, hs⟩ := h _ List.mem_cons_self hm
      exact ⟨if s ≠ emptyId then (n, m, s) :: out else out,
        by simp only [regexReplaceEntries, hm, if_true, hs, hout, Except.ok_bind]⟩
    · by_cases hc : m = .commit
      · subst hc
        exact ⟨out, by simp [regexReplaceEntries, Mode.isTree, hout]⟩
      · exact ⟨(n, m, textBlob (replaceAll (blobText o))) :: out,
          by simp [regexReplaceEntries, hm, hc, hout]⟩

/-- On a well-formed tree the walk succeeds: every tree entry holds a tree. -/
theorem regexReplaceInner_ok (o : Obj) :
    o.wf → o.isTree → ∃ s, regexReplaceInner replaceAll o = .ok s := by
  induction o with
  | blob d => simp [Obj.isTree]
  | tree es ih =>
    intro wf _
    obtain ⟨_, _, entries⟩ := (wf_tree_iff es).mp wf
    obtain ⟨out, hout⟩ := regexReplaceEntries_ok es fun e he hm =>
      ih e he (entries e he).wf (hm ▸ (entries e he).kind.symm)
    exact ⟨.tree out, by simp [regexReplaceInner, hout]⟩

end Leaves

/-- A blob holding a NUL byte comes out of a `RegexReplace` filter empty, through any
well-formed tree and at any path, when the regex finds nothing to replace in the empty text. -/
theorem regex_replace_empties_binary_blob (env : ApplyEnv) (sem : Regex → String → String → String)
    (regex : Regex) (replacement : String) (miss : sem regex replacement "" = "") (t : Obj)
    (wf : t.wf) (ht : t.isTree) {p : List String} {m : Mode} {bytes : List UInt8}
    (leaf : t.leaves p = some (m, .blob bytes)) (hm : m ≠ .commit) (binary : 0 ∈ bytes) :
    ∃ x, apply (env.withRegex sem) (.regexReplace [(regex, replacement)]) (.fromTree t) = .ok x ∧
      x.tree.leaves p = some (m, .blob []) ∧ bytes ≠ [] := by
  obtain ⟨s, hs⟩ := @regexReplaceInner_ok (sem regex replacement) t wf ht
  refine ⟨.fromTree s, ?_, ?_, List.ne_nil_of_mem binary⟩
  · simp [apply, Op.depth, applyImpl, peelOp, ApplyEnv.withRegex, hs]
  · rw [Rewrite.tree_fromTree, leaves_regexReplaceInner t wf s hs p, leaf]
    simp [replaceLeaf, hm, blobText, binary, miss, textBlob]

/- The blob `bin` holding the one byte NUL, under a regex that replaces nothing. -/
theorem regex_replace_empties_nul_blob :
    (fun (_ : Regex) (_ : String) (text : String) => text) "x" "y" "" = "" ∧
      (Obj.tree [("bin", .blob, .blob [0])]).wf ∧ (Obj.tree [("bin", .blob, .blob [0])]).isTree ∧
      (Obj.tree [("bin", .blob, .blob [0])]).leaves ["bin"] = some (.blob, .blob [0]) ∧
      Mode.blob ≠ .commit ∧ (0 : UInt8) ∈ [0] ∧
      ∃ x, apply (UnapplyEnv.treesOnly.toApplyEnv.withRegex fun _ _ text => text)
          (.regexReplace [("x", "y")]) (.fromTree (.tree [("bin", .blob, .blob [0])])) = .ok x ∧
        x.tree.leaves ["bin"] = some (.blob, .blob []) ∧ [(0 : UInt8)] ≠ [] := by
  have miss : (fun (_ : Regex) (_ : String) (text : String) => text) "x" "y" "" = "" := rfl
  have wf : (Obj.tree [("bin", .blob, .blob [0])]).wf := by decide
  have ht : (Obj.tree [("bin", .blob, .blob [0])]).isTree := rfl
  have leaf : (Obj.tree [("bin", .blob, .blob [0])]).leaves ["bin"] = some (.blob, .blob [0]) := rfl
  have hm : Mode.blob ≠ .commit := by decide
  have binary : (0 : UInt8) ∈ [0] := by simp
  exact ⟨miss, wf, ht, leaf, hm, binary, regex_replace_empties_binary_blob _ _ "x" "y" miss _ wf ht
    leaf hm binary⟩

end Josh
