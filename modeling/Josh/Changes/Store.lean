import Josh.TreeOps

/-! The change store of `josh-changes/src/store.rs` and `change.rs`: `store_diff_data` keeps each
change's tree at `diffs/<encoded change id>` of its scope's tree, and `list_changes` reads the
ids back from the entry names. The encoding only replaces `/` by `%2F`, so an id holding the text
`%2F` lands on the entry of another id, and the ids `""` and `"."` name no entry at all: the path
`diffs/.` is the path `diffs`, and the store replaces every change at once. -/

namespace Josh

/-- `encode_change_id_path`: each `/` as `%2F`. -/
def encodeChangeIdPath (id : String) : String :=
  String.ofList (id.toList.flatMap fun c => if c = '/' then ['%', '2', 'F'] else [c])

/-- `str::replace("%2F", "/")`, from the left. -/
def decodeChars : List Char → List Char
  | '%' :: '2' :: 'F' :: rest => '/' :: decodeChars rest
  | c :: rest => c :: decodeChars rest
  | [] => []

/-- `decode_change_id_path`. -/
def decodeChangeIdPath (enc : String) : String := String.ofList (decodeChars enc.toList)

/-- The components of `Path::new("diffs").join(name)` for a name without a separator: `""` and
`"."` add none. -/
def diffsPath (name : String) : List String :=
  if name = "" ∨ name = "." then ["diffs"] else ["diffs", name]

/-- `store_diff_data` on the scope's tree: `entry` is the change's tree, one blob with its commit
and base. A path ending in `..` has no file name, which `insert_oid` rejects. The source skips
the write when the path already holds `entry`; the model writes it again. -/
def storeDiffData (base : Obj) (changeId : String) (entry : Obj) : Except String Obj :=
  let name := encodeChangeIdPath changeId
  if name = ".." then .error "file_name"
  else insertOid base (diffsPath name) (some entry) .tree

theorem encodeChangeIdPath_escaped_slash (u v : String) :
    encodeChangeIdPath (u ++ "/" ++ v) = encodeChangeIdPath (u ++ "%2F" ++ v) := by
  simp [encodeChangeIdPath, List.flatMap_append]

/-- A lookup finds the one entry of its name. -/
theorem lookupEntry_of_unique {es : List Entry} {e : Entry} (he : e ∈ es)
    (unique : ∀ x ∈ es, x.1 = e.1 → x = e) : lookupEntry es e.1 = some e := by
  obtain ⟨x, hx⟩ := Option.isSome_iff_exists.mp
    (List.find?_isSome.mpr ⟨e, he, by simp⟩ : (lookupEntry es e.1).isSome)
  have found := List.find?_some hx
  rw [lookupEntry, hx, unique x (List.mem_of_find?_eq_some hx) (by simpa using found)]

/-- The first entry matching `p` has no match before it, so at least as many entries that do
not match stand after the ones before it. -/
theorem findIdx?_le_length_filter {α : Type*} {l : List α} {p : α → Bool} {pos : Nat}
    (h : l.findIdx? p = some pos) : pos ≤ (l.filter fun x => !p x).length := by
  obtain ⟨hpos, -, before⟩ := List.findIdx?_eq_some_iff_getElem.mp h
  have kept : (l.take pos).filter (fun x => !p x) = l.take pos := by
    refine List.filter_eq_self.mpr fun x hx => ?_
    obtain ⟨j, hj, rfl⟩ := List.getElem_of_mem hx
    rw [List.getElem_take]
    simpa using before j (by simp at hj; exact hj.1)
  calc pos = (l.take pos).length := by simp; omega
    _ = ((l.take pos).filter fun x => !p x).length := by rw [kept]
    _ ≤ (l.filter fun x => !p x).length := ((List.take_sublist _ _).filter _).length_le

/-- After `replace_child_inner`, the child's name holds the new entry alone. -/
theorem lookupEntry_replaceChildInner (child : String) {o : Obj} (ho : o ≠ emptyId) (mode : Mode)
    (t : Obj) :
    ∃ es, replaceChildInner child (some o) mode t = .tree es ∧
      lookupEntry es child = some (child, mode, o) := by
  -- the other entries are those of `t` without the child's name
  have others : ∀ x ∈ (t.entries?.getD []).filter (fun e => e.1 != child), x.1 ≠ child :=
    fun x hx => by simpa using (List.mem_filter.mp hx).2
  have placed : ∀ es : List Entry,
      (∀ x, x ∈ es ↔ x = (child, mode, o) ∨ x ∈ (t.entries?.getD []).filter (fun e => e.1 != child)) →
      lookupEntry es child = some (child, mode, o) := fun es mem =>
    lookupEntry_of_unique ((mem _).mpr (.inl rfl)) fun x hx hname =>
      ((mem x).mp hx).resolve_right fun hx' => others x hx' hname
  cases hfirst : (t.entries?.getD []).findIdx? (fun e => e.1 == child) with
  | some pos =>
    refine ⟨_, by simp only [replaceChildInner, ho, hfirst, if_false], placed _ fun x =>
      List.mem_insertIdx (findIdx?_le_length_filter hfirst)⟩
  | none =>
    refine ⟨insertInOrder ((t.entries?.getD []).filter fun e => e.1 != child) (child, mode, o),
      by simp only [replaceChildInner, ho, hfirst, if_false], placed _ fun x => ?_⟩
    rw [(insertInOrder_perm _ _).mem_iff]
    simp [or_comm]

/-- Storing the change id `.` writes the change's tree at `diffs` itself: every other stored
change is gone. Around a `/` and around `%2F` in its place, two ids are stored at one entry. -/
theorem store_diff_data_loses_changes (base entry : Obj) (h : entry ≠ emptyId) (u v : String) :
    (∃ t, storeDiffData base "." entry = .ok t ∧
      getPathEntry t ["diffs"] = some ("diffs", .tree, entry)) ∧
    storeDiffData base (u ++ "/" ++ v) entry = storeDiffData base (u ++ "%2F" ++ v) entry := by
  refine ⟨?_, by rw [storeDiffData, storeDiffData, encodeChangeIdPath_escaped_slash]⟩
  have dot : encodeChangeIdPath "." = "." := by decide
  obtain ⟨es, hes, found⟩ := lookupEntry_replaceChildInner "diffs" h .tree base
  refine ⟨.tree es, ?_, by simp [getPathEntry, Obj.entries?, found, descendEntry]⟩
  simp [storeDiffData, dot, diffsPath, insertOid, insertOidRev, hes]

/- The id `.` stored over a store holding the change `x`. -/
theorem store_diff_data_dot_over_x :
    let change : Obj := .tree [("c", .blob, .blob [1])]
    let base : Obj := .tree [("diffs", .tree, .tree [("x", .tree, change)])]
    change ≠ emptyId ∧
      ((∃ t, storeDiffData base "." change = .ok t ∧
        getPathEntry t ["diffs"] = some ("diffs", .tree, change)) ∧
      storeDiffData base ("a" ++ "/" ++ "b") change = storeDiffData base ("a" ++ "%2F" ++ "b") change) := by
  intro change base
  have h : change ≠ emptyId := by decide
  exact ⟨h, store_diff_data_loses_changes base change h "a" "b"⟩

end Josh
