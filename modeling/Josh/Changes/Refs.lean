import Mathlib.Data.List.Basic

/-! The ref names of a change stack, `StackedRef` of `josh-changes/src/refs.rs`. A name is
`refs/heads/@changes/<target>/<author>/<change-id>`, its `@base` twin, or
`refs/heads/@heads/<target>/<author>`; `parse` finds the author as the first `/`-separated
segment holding `@`, so it reads a name back when the target holds no `@` and the author no `/`.
The grammar is worked over the characters of a name: its offsets count characters, and the
byte offsets of the source fall at the same separators. -/

namespace Josh

inductive StackedChangeRef where
  | change (target author changeId : String)
  | base (target author changeId : String)
  deriving DecidableEq, Repr

/-- `as_base`. -/
def StackedChangeRef.asBase : StackedChangeRef → StackedChangeRef
  | .change target author changeId => .base target author changeId
  | .base target author changeId => .base target author changeId

inductive StackedRef where
  | changeRef (r : StackedChangeRef)
  | stackHead (target author : String)
  deriving DecidableEq, Repr

/-- `ref_name`, its format strings cut after `refs/heads/`. -/
def StackedRef.refName : StackedRef → String
  | .changeRef (.change target author changeId) =>
    "refs/heads/" ++ "@changes/" ++ target ++ "/" ++ author ++ "/" ++ changeId
  | .changeRef (.base target author changeId) =>
    "refs/heads/" ++ "@base/" ++ target ++ "/" ++ author ++ "/" ++ changeId
  | .stackHead target author => "refs/heads/" ++ "@heads/" ++ target ++ "/" ++ author

/-- The bare `@...` spelling of a ref, which `parse` also accepts. -/
def StackedRef.shorthand : StackedRef → String
  | .changeRef (.change target author changeId) =>
    "@changes/" ++ target ++ "/" ++ author ++ "/" ++ changeId
  | .changeRef (.base target author changeId) =>
    "@base/" ++ target ++ "/" ++ author ++ "/" ++ changeId
  | .stackHead target author => "@heads/" ++ target ++ "/" ++ author

/-- `str::split_once`. -/
def splitOnce (c : Char) : List Char → Option (List Char × List Char)
  | [] => none
  | x :: xs => if x = c then some ([], xs) else (splitOnce c xs).map fun p => (x :: p.1, p.2)

/-- The loop of `split_target_author` over the segments from `segs` on: `targetEnd` is the
offset just past the segments before them and their separators. -/
def splitSegments (rest : List Char) :
    Nat → List (List Char) → Option (List Char × List Char × List Char)
  | _, [] => none
  | targetEnd, segment :: segs =>
    if '@' ∈ segment then
      if targetEnd = 0 then none
      else
        let afterAuthor := rest.drop (targetEnd + segment.length)
        some (rest.take (targetEnd - 1), segment, (afterAuthor.dropPrefix? ['/']).getD afterAuthor)
    else splitSegments rest (targetEnd + segment.length + 1) segs

/-- `split_target_author`: the target, the author and the change id, possibly empty. -/
def splitTargetAuthor (rest : List Char) : Option (List Char × List Char × List Char) :=
  splitSegments rest 0 (rest.splitOn '/')

/-- The name without the `refs/heads/` or `refs/remotes/<remote>/` prefix, or the whole name. -/
def refBody (refName : List Char) : Option (List Char) :=
  match refName.dropPrefix? "refs/heads/".toList with
  | some rest => some rest
  | none =>
    match refName.dropPrefix? "refs/remotes/".toList with
    | some rest => (splitOnce '/' rest).map (·.2)
    | none => some refName

/-- The end of `parse` for the `@changes` and `@base` families: an empty change id is refused. -/
def parseChange (isBase : Bool) (rest : List Char) : Option StackedRef := do
  let (target, author, changeId) ← splitTargetAuthor rest
  if changeId.isEmpty then none
  else
    let change := StackedChangeRef.change (String.ofList target) (String.ofList author)
      (String.ofList changeId)
    some (.changeRef (if isBase then change.asBase else change))

/-- `parse` after the prefix: the three families, a stack head with nothing after its author. -/
def parseBody (name : List Char) : Option StackedRef :=
  match name.dropPrefix? "@changes/".toList with
  | some rest => parseChange false rest
  | none =>
    match name.dropPrefix? "@base/".toList with
    | some rest => parseChange true rest
    | none =>
      match name.dropPrefix? "@heads/".toList with
      | some rest => do
        let (target, author, trailing) ← splitTargetAuthor rest
        if trailing.isEmpty then some (.stackHead (String.ofList target) (String.ofList author))
        else none
      | none => none

/-- `parse`. -/
def StackedRef.parse (refName : String) : Option StackedRef :=
  refBody refName.toList >>= parseBody

theorem StackedRef.refName_eq_shorthand (r : StackedRef) :
    r.refName = "refs/heads/" ++ r.shorthand := by
  -- read each case off by `show`: the equation lemmas of `refName` are slow to build over its
  -- literals
  rcases r with (⟨t, a, c⟩ | ⟨t, a, c⟩) | ⟨t, a⟩
  · show "refs/heads/" ++ "@changes/" ++ t ++ "/" ++ a ++ "/" ++ c =
      "refs/heads/" ++ ("@changes/" ++ t ++ "/" ++ a ++ "/" ++ c)
    simp only [String.append_assoc]
  · show "refs/heads/" ++ "@base/" ++ t ++ "/" ++ a ++ "/" ++ c =
      "refs/heads/" ++ ("@base/" ++ t ++ "/" ++ a ++ "/" ++ c)
    simp only [String.append_assoc]
  · show "refs/heads/" ++ "@heads/" ++ t ++ "/" ++ a = "refs/heads/" ++ ("@heads/" ++ t ++ "/" ++ a)
    simp only [String.append_assoc]

section Segments

theorem splitOnce_append_cons {c : Char} {l : List Char} (h : c ∉ l) (r : List Char) :
    splitOnce c (l ++ c :: r) = some (l, r) := by
  induction l with
  | nil => simp [splitOnce]
  | cons x xs ih =>
    have hx : x ≠ c := fun hx => h (hx ▸ List.mem_cons_self)
    simp [splitOnce, hx, ih (fun hc => h (List.mem_cons_of_mem x hc))]

/-- Segments without `@` are passed over, and the offset moves past them and a separator. -/
theorem splitSegments_skip (rest : List Char) (more : List (List Char)) :
    ∀ (ls : List (List Char)) (k : Nat), ls ≠ [] → '@' ∉ ['/'].intercalate ls →
      splitSegments rest k (ls ++ more) =
        splitSegments rest (k + (['/'].intercalate ls).length + 1) more
  | [], _, h, _ => absurd rfl h
  | [s], k, _, hs => by simp_all [splitSegments]
  | s :: s' :: tl, k, _, hs => by
    rw [List.intercalate_cons_cons] at hs ⊢
    simp only [List.mem_append, not_or] at hs
    rw [List.cons_append, splitSegments, if_neg hs.1.1,
      splitSegments_skip rest more (s' :: tl) _ (List.cons_ne_nil _ _) hs.2]
    congr 1
    simp only [List.length_append, List.length_singleton]
    omega

/-- With no `@` in the target and the author one segment holding `@`, the split finds both, and
the change id is what follows the author's separator. -/
theorem splitTargetAuthor_eq {t a tail : List Char} (ht : '@' ∉ t) (ha : '@' ∈ a)
    (slash : '/' ∉ a) (htail : tail = [] ∨ ∃ c, tail = '/' :: c) :
    splitTargetAuthor (t ++ '/' :: (a ++ tail)) =
      some (t, a, (tail.dropPrefix? ['/']).getD tail) := by
  obtain ⟨more, segs⟩ : ∃ more, (a ++ tail).splitOn '/' = a :: more := by
    rcases htail with rfl | ⟨c, rfl⟩
    · exact ⟨[], by simpa using List.splitOn_eq_singleton slash⟩
    · exact ⟨c.splitOn '/', List.splitOn_append_cons_self_of_not_mem slash c⟩
  have skip := splitSegments_skip (t ++ '/' :: (a ++ tail)) (a :: more) (t.splitOn '/') 0
    (List.splitOn_ne_nil _ _) (by rwa [List.intercalate_splitOn])
  rw [List.intercalate_splitOn] at skip
  have after : (t ++ '/' :: (a ++ tail)).drop (0 + t.length + 1 + a.length) = tail := by
    rw [show t ++ '/' :: (a ++ tail) = (t ++ '/' :: a) ++ tail by simp,
      show 0 + t.length + 1 + a.length = (t ++ '/' :: a).length by simp; omega, List.drop_left]
  rw [splitTargetAuthor, List.splitOn_append_cons_self, segs, skip, splitSegments, if_pos ha,
    if_neg (by omega), after]
  simp

end Segments

section Parse

variable {t a c : String}

theorem parseChange_eq (isBase : Bool) (ht : '@' ∉ t.toList) (ha : '@' ∈ a.toList)
    (slash : '/' ∉ a.toList) (hc : c ≠ "") :
    parseChange isBase (t.toList ++ '/' :: (a.toList ++ '/' :: c.toList)) =
      some (.changeRef (if isBase then .base t a c else .change t a c)) := by
  have hc' : c.toList ≠ [] := by simpa using hc
  rw [parseChange, splitTargetAuthor_eq ht ha slash (.inr ⟨_, rfl⟩)]
  cases isBase <;> simp [hc', StackedChangeRef.asBase, List.dropPrefix?]

theorem parseBody_changes (rest : List Char) :
    parseBody ("@changes/".toList ++ rest) = parseChange false rest := by
  simp [parseBody, List.dropPrefix?]

theorem parseBody_base (rest : List Char) :
    parseBody ("@base/".toList ++ rest) = parseChange true rest := by
  simp [parseBody, List.dropPrefix?]

theorem parseBody_stackHead (ht : '@' ∉ t.toList) (ha : '@' ∈ a.toList) (slash : '/' ∉ a.toList) :
    parseBody ("@heads/".toList ++ (t.toList ++ '/' :: a.toList)) = some (.stackHead t a) := by
  have split := @splitTargetAuthor_eq t.toList a.toList [] ht ha slash (.inl rfl)
  rw [List.append_nil] at split
  simp [parseBody, List.dropPrefix?, split]

/-- What `parse` reads after any of its three prefixes: the bare name of the ref. -/
theorem parseBody_shorthand (ht : '@' ∉ t.toList) (ha : '@' ∈ a.toList) (slash : '/' ∉ a.toList)
    (hc : c ≠ "") :
    ∀ r ∈ [StackedRef.changeRef (.change t a c), .changeRef (.base t a c), .stackHead t a],
      parseBody r.shorthand.toList = some r := by
  have sep : ("/" : String).toList = ['/'] := rfl
  simp only [List.mem_cons, List.not_mem_nil, or_false]
  rintro r (rfl | rfl | rfl)
  · show parseBody ("@changes/" ++ t ++ "/" ++ a ++ "/" ++ c).toList = _
    simp only [String.toList_append, sep, List.append_assoc, List.singleton_append,
      List.cons_append, List.nil_append]
    rw [parseBody_changes, parseChange_eq false ht ha slash hc]
    rfl
  · show parseBody ("@base/" ++ t ++ "/" ++ a ++ "/" ++ c).toList = _
    simp only [String.toList_append, sep, List.append_assoc, List.singleton_append,
      List.cons_append, List.nil_append]
    rw [parseBody_base, parseChange_eq true ht ha slash hc]
    rfl
  · show parseBody ("@heads/" ++ t ++ "/" ++ a).toList = _
    simp only [String.toList_append, sep, List.append_assoc, List.singleton_append]
    exact parseBody_stackHead ht ha slash

end Parse

/-- The three prefixes `parse` strips: `refs/heads/`, `refs/remotes/<remote>/` for a remote
without `/`, and none before a bare `@` name. -/
theorem refBody_heads (body : List Char) :
    refBody ("refs/heads/".toList ++ body) = some body := by
  simp [refBody, List.dropPrefix?]

theorem refBody_remotes {remote : List Char} (h : '/' ∉ remote) (body : List Char) :
    refBody ("refs/remotes/".toList ++ (remote ++ '/' :: body)) = some body := by
  simp [refBody, List.dropPrefix?, splitOnce_append_cons h]

theorem refBody_bare (body : List Char) : refBody ('@' :: body) = some ('@' :: body) := by
  simp [refBody, List.dropPrefix?]

theorem StackedRef.shorthand_head (r : StackedRef) : ∃ body, r.shorthand.toList = '@' :: body := by
  rcases r with (⟨t, a, c⟩ | ⟨t, a, c⟩) | ⟨t, a⟩
  · exact ⟨_, show ("@changes/" ++ t ++ "/" ++ a ++ "/" ++ c).toList = _ by
      simp only [String.toList_append, List.append_assoc]; rfl⟩
  · exact ⟨_, show ("@base/" ++ t ++ "/" ++ a ++ "/" ++ c).toList = _ by
      simp only [String.toList_append, List.append_assoc]; rfl⟩
  · exact ⟨_, show ("@heads/" ++ t ++ "/" ++ a).toList = _ by
      simp only [String.toList_append, List.append_assoc]; rfl⟩

/-- A change, its base and its stack head read back from the names `ref_name` gives them, from
their bare names and from their names under any remote whose name holds no `/`. -/
theorem stacked_ref_parse_ref_name {t a c : String} (ht : '@' ∉ t.toList) (ha : '@' ∈ a.toList)
    (slash : '/' ∉ a.toList) (hc : c ≠ "") :
    ∀ r ∈ [StackedRef.changeRef (.change t a c), .changeRef (.base t a c), .stackHead t a],
      StackedRef.parse r.refName = some r ∧ StackedRef.parse r.shorthand = some r ∧
        ∀ remote : String, '/' ∉ remote.toList →
          StackedRef.parse ("refs/remotes/" ++ remote ++ "/" ++ r.shorthand) = some r := by
  intro r hr
  have body := parseBody_shorthand ht ha slash hc r hr
  obtain ⟨rest, head⟩ := r.shorthand_head
  refine ⟨?_, ?_, fun remote hremote => ?_⟩
  · rw [StackedRef.parse, StackedRef.refName_eq_shorthand, String.toList_append, refBody_heads]
    exact body
  · rw [StackedRef.parse, head, refBody_bare, ← head]
    exact body
  · rw [StackedRef.parse, String.toList_append, String.toList_append, String.toList_append,
      List.append_assoc, List.append_assoc, show ("/" : String).toList = ['/'] from rfl,
      List.singleton_append, refBody_remotes hremote]
    exact body

theorem stacked_ref_parse_master :
    '@' ∉ ("feature/foo" : String).toList ∧ '@' ∈ ("josh@example.com" : String).toList ∧
      '/' ∉ ("josh@example.com" : String).toList ∧ ("o/r/pull/1" : String) ≠ "" ∧
      ∀ r ∈ [StackedRef.changeRef (.change "feature/foo" "josh@example.com" "o/r/pull/1"),
          .changeRef (.base "feature/foo" "josh@example.com" "o/r/pull/1"),
          .stackHead "feature/foo" "josh@example.com"],
        StackedRef.parse r.refName = some r ∧ StackedRef.parse r.shorthand = some r ∧
          ∀ remote : String, '/' ∉ remote.toList →
            StackedRef.parse ("refs/remotes/" ++ remote ++ "/" ++ r.shorthand) = some r := by
  have ht : '@' ∉ ("feature/foo" : String).toList := by decide
  have ha : '@' ∈ ("josh@example.com" : String).toList := by decide
  have slash : '/' ∉ ("josh@example.com" : String).toList := by decide
  have hc : ("o/r/pull/1" : String) ≠ "" := by decide
  exact ⟨ht, ha, slash, hc, stacked_ref_parse_ref_name ht ha slash hc⟩

end Josh
