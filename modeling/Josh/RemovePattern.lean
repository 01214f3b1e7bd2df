import Josh.Pattern
import Josh.Lib.BitSet
import Josh.DiffPaths
import Josh.RegexReplace

/-! `remove_pred` and `remove_pattern` of `josh-core/src/filter/tree.rs`, the two walks of the
`Op::Pattern` arm of `apply_to_tree`. `remove_pred` builds the full path of each blob and asks a
predicate; `remove_pattern` carries instead the set of component positions the directories
walked so far can have reached, as the bits of a `u64`, and prunes a subtree whose set comes out
empty. Both keep blobs verbatim, drop gitlinks and drop subtrees that come out empty. The
transaction memos in front of both walks only replay their results. -/

namespace Josh

open Glob

section Pred

variable (pred : String → Bool → Bool)

mutual
/-- `remove_pred_inner`. Entry names are strings here, so their UTF-8 check always passes. -/
def removePredInner (path : String) : Obj → Except String Obj
  | .blob _ => .error "remove_pred: not a tree"
  | .tree es => do .ok (.tree (← removePredEntries path es))
/-- The loop of `remove_pred_inner` over the entries, in order. -/
def removePredEntries (path : String) : List Entry → Except String (List Entry)
  | [] => .ok []
  | (name, mode, o) :: rest =>
    if mode.isTree then do
      let s ← removePredInner (joinPath path name) o
      let out ← removePredEntries path rest
      .ok (if s ≠ emptyId then (name, mode, s) :: out else out)
    else if mode = .commit then removePredEntries path rest
    else if pred (joinPath path name) true then do
      .ok ((name, mode, o) :: (← removePredEntries path rest))
    else removePredEntries path rest
end

end Pred

/-- The positions a `u64` state holds, lowest first, as the loops on `trailing_zeros` visit
them. -/
def stateBits (state : Nat) : List Nat := BitSet.members 64 state

/-- Whether the component at an active position can accept a blob at this level. -/
def CompiledPattern.acceptsBlobsAt (cp : CompiledPattern) (p : Nat) : Bool :=
  match cp.components[p]? with
  | some (.glob _) => p == cp.components.length - 1
  | some .star2 => cp.suffixAllStar[p]?.getD false
  | none => false

/-- The successors of an active position `p` on a directory `name`, added to `next`: a glob
that matches the name and is not last advances, a `**` stays for a name without a leading dot. -/
def CompiledPattern.advance (cp : CompiledPattern) (name : String) (next p : Nat) : Nat :=
  match cp.components[p]? with
  | some (.glob g) =>
    if p + 1 < cp.components.length && g.matchesWith name patternMatchOptions then
      next ||| 1 <<< (p + 1)
    else next
  | some .star2 => if !startsWithDot name.toList then next ||| 1 <<< p else next
  | none => next

/-- The successor state of `state` on a directory `name`. -/
def CompiledPattern.nextState (cp : CompiledPattern) (state : Nat) (name : String) : Nat :=
  (stateBits state).foldl (cp.advance name) 0

/-- Whether the component at an active position keeps the blob `name`. -/
def CompiledPattern.keepsAt (cp : CompiledPattern) (name : String) (p : Nat) : Bool :=
  match cp.components[p]? with
  | some (.glob g) => p == cp.components.length - 1 && g.matchesWith name patternMatchOptions
  | some .star2 => cp.suffixAllStar[p]?.getD false && !startsWithDot name.toList
  | none => false

section Walk

variable (cp : CompiledPattern)

mutual
/-- `remove_pattern_inner`: the tree below a directory whose path has reached the positions of
`state`. -/
def removePatternInner (state : Nat) : Obj → Except String Obj
  | .blob _ => .error "remove_pattern: not a tree"
  | .tree es => do
    let state := cp.closure state
    .ok (.tree (← removePatternEntries state ((stateBits state).any cp.acceptsBlobsAt) es))
/-- The loop of `remove_pattern_inner` over the entries, in order. -/
def removePatternEntries (state : Nat) (acceptsBlobs : Bool) : List Entry → Except String (List Entry)
  | [] => .ok []
  | (name, mode, o) :: rest =>
    if mode.isTree then do
      let next := cp.nextState state name
      -- an empty successor state matches nothing below: the subtree is dropped unread
      let s ← if next = 0 then .ok emptyId else removePatternInner next o
      let out ← removePatternEntries state acceptsBlobs rest
      .ok (if s ≠ emptyId then (name, mode, s) :: out else out)
    else if mode = .commit then removePatternEntries state acceptsBlobs rest
    else if acceptsBlobs && (stateBits state).any (cp.keepsAt name) then do
      .ok ((name, mode, o) :: (← removePatternEntries state acceptsBlobs rest))
    else removePatternEntries state acceptsBlobs rest
end

end Walk

/-- The predicate of the fallback walk: a blob whose full path the whole pattern matches. -/
def CompiledPattern.fullPathPred (cp : CompiledPattern) (path : String) (isBlob : Bool) : Bool :=
  isBlob && cp.full.matchesWith path patternMatchOptions

/-- The tree of the `Op::Pattern` arm: the walk of the compiled pattern, or for a pattern with more
components than a state holds, `remove_pred` with a full-path match. -/
def patternTree (cp : CompiledPattern) (t : Obj) : Except String Obj :=
  if cp.fallback then removePredInner cp.fullPathPred "" t
  else removePatternInner cp CompiledPattern.initialState t

/-- The environment whose glob filter is the `Op::Pattern` arm, its pattern compiled as
`Op::pattern` compiles it. -/
def ApplyEnv.withPattern (env : ApplyEnv) : ApplyEnv :=
  { env with
    pattern := fun glob t =>
      match CompiledPattern.compile glob with
      | .ok cp => patternTree cp t
      | .error e => .error e.msg }

/-! ### The positions of a state -/

/-- Some position of the state accepts the names. -/
def acceptsFrom (cs : List PatternComponent) (state : Nat) (names : List (List Char)) : Prop :=
  ∃ p ∈ stateBits state, acceptsPath (cs.drop p) names = true

section Positions

variable {cp : CompiledPattern}

theorem mem_stateBits {state p : Nat} : p ∈ stateBits state ↔ p < 64 ∧ state.testBit p = true :=
  BitSet.mem_members

theorem drop_eq_cons {cs : List PatternComponent} {p : Nat} {c : PatternComponent}
    (h : cs[p]? = some c) : cs.drop p = c :: cs.drop (p + 1) := by
  obtain ⟨lt, rfl⟩ := List.getElem?_eq_some_iff.mp h
  exact List.drop_eq_getElem_cons lt

theorem acceptsPath_drop_of_le {cs : List PatternComponent} {p : Nat}
    {names : List (List Char)} (h : acceptsPath (cs.drop p) names = true) : p < cs.length := by
  by_contra hp
  rw [List.drop_eq_nil_of_le (by omega)] at h
  cases names <;> simp [acceptsPath] at h

/-- Skipping `**`s: a position accepts what a later one does when only `**`s lie between. -/
theorem acceptsPath_drop_of_star2s {cs : List PatternComponent} {names : List (List Char)}
    {p q : Nat} (hpq : p ≤ q) (skips : ∀ r, p ≤ r → r < q → cs[r]? = some .star2)
    (h : acceptsPath (cs.drop q) names = true) : acceptsPath (cs.drop p) names = true := by
  induction q, hpq using Nat.le_induction with
  | base => exact h
  | succ q hpq ih =>
    apply ih fun r h₁ h₂ => skips r h₁ (by omega)
    rw [drop_eq_cons (skips q hpq (by omega))]
    exact acceptsPath_star2_of h

theorem closure_eq_closeUp (cp : CompiledPattern) (state : Nat) :
    cp.closure state =
      BitSet.closeUp (fun p => cp.components[p]? == some .star2) (cp.components.length - 1) state :=
  rfl

/-- The closure changes what the state accepts in nothing. -/
theorem acceptsFrom_closure (state : Nat) (names : List (List Char)) :
    acceptsFrom cp.components (cp.closure state) names ↔ acceptsFrom cp.components state names := by
  simp only [acceptsFrom, mem_stateBits, closure_eq_closeUp]
  constructor
  · rintro ⟨q, ⟨lt, hq⟩, h⟩
    rcases (BitSet.testBit_closeUp _ state q _).mp hq with hs | ⟨p, hp, -, hsp, skips⟩
    · exact ⟨q, ⟨lt, hs⟩, h⟩
    · exact ⟨p, ⟨by omega, hsp⟩,
        acceptsPath_drop_of_star2s hp.le (fun r h₁ h₂ => by simpa using skips r h₁ h₂) h⟩
  · rintro ⟨p, ⟨lt, hp⟩, h⟩
    exact ⟨p, ⟨lt, BitSet.testBit_closeUp_of _ state hp⟩, h⟩

/-- After the closure, an active `**` that is not last has its successor active. -/
theorem closure_closed (small : cp.components.length ≤ 64) (state : Nat) {p : Nat}
    (hp : p ∈ stateBits (cp.closure state)) (star : cp.components[p]? = some .star2)
    (next : p + 1 < cp.components.length) : p + 1 ∈ stateBits (cp.closure state) := by
  rw [mem_stateBits, closure_eq_closeUp] at *
  exact ⟨by omega, BitSet.testBit_closeUp_succ _ state hp.2 (by simpa using star) (by omega)⟩

/-- Over a state closed under the `**` skips, a witness that is local or skips a `**` to the
next position has a local witness in the state. -/
theorem exists_of_closure (small : cp.components.length ≤ 64) (state : Nat)
    {A L : Nat → Prop} (bound : ∀ p, A p → p < cp.components.length)
    (step : ∀ p, A p → L p ∨ (cp.components[p]? = some .star2 ∧ A (p + 1)))
    {p : Nat} (hp : p ∈ stateBits (cp.closure state)) (h : A p) :
    ∃ q ∈ stateBits (cp.closure state), L q := by
  obtain ⟨q, hq, hL⟩ := BitSet.exists_of_closed
    (S := (· ∈ stateBits (cp.closure state)))
    (K := fun p => cp.components[p]? = some .star2 ∧ p + 1 < cp.components.length)
    (fun p hp ⟨star, next⟩ => closure_closed small state hp star next) bound
    (fun p hA => (step p hA).imp_right fun ⟨star, hA'⟩ => ⟨⟨star, bound _ hA'⟩, hA'⟩) hp h
  exact ⟨q, hq, hL⟩

theorem suffixAllStarOf_getElem? :
    ∀ (cs : List PatternComponent) (p : Nat),
      (suffixAllStarOf cs)[p]? = if p < cs.length then some ((cs.drop p).all (· == .star2)) else none
  | [], p => by simp [suffixAllStarOf]
  | c :: cs, 0 => by
    have rest := suffixAllStarOf_getElem? cs 0
    cases cs <;> simp_all [suffixAllStarOf]
  | c :: cs, p + 1 => by
    simp [suffixAllStarOf, suffixAllStarOf_getElem? cs p]

variable (wf : cp.Wf)
include wf

/-- What a position accepts of a last name: the blob it keeps, or what the next position accepts
past a `**`. -/
theorem acceptsPath_drop_last {name : String} (ok : NamesOk [name.toList]) (p : Nat) :
    acceptsPath (cp.components.drop p) [name.toList] = (cp.keepsAt name p ||
      (cp.components[p]? == some .star2 && acceptsPath (cp.components.drop (p + 1)) [name.toList])) := by
  obtain ⟨x, n, e, hn⟩ := ok.head
  cases h : cp.components[p]? with
  | none =>
    rw [List.drop_eq_nil_of_le (List.getElem?_eq_none_iff.mp h)]
    simp [acceptsPath, CompiledPattern.keepsAt, h]
  | some c =>
    rw [drop_eq_cons h]
    have lt := (List.getElem?_eq_some_iff.mp h).1
    cases c with
    | star2 =>
      have hs : cp.suffixAllStar[p]?.getD false = (cp.components.drop (p + 1)).all (· == .star2) := by
        rw [wf.suffixAllStar, suffixAllStarOf_getElem?, if_pos lt, Option.getD_some, drop_eq_cons h]
        simp
      rw [e, acceptsPath_star2_last, CompiledPattern.keepsAt, h]
      simp only [hs, startsWithDot_cons, e, beq_self_eq_true, Bool.true_and]
      cases acceptsPath (cp.components.drop (p + 1)) [x :: n] <;> simp [Bool.and_comm]
    | glob g =>
      have last : (cp.components.drop (p + 1)).isEmpty = (p == cp.components.length - 1) := by
        rw [Bool.eq_iff_iff, List.isEmpty_iff, List.drop_eq_nil_iff, beq_iff_eq]
        omega
      rw [CompiledPattern.keepsAt, h]
      simp [acceptsPath, last, Pattern.matchesWith]

omit wf in
theorem testBit_advance_glob {g : Glob.Pattern} {p : Nat} (h : cp.components[p]? = some (.glob g))
    (name : String) (q : Nat) : (cp.advance name 0 p).testBit q =
      (decide (p + 1 < cp.components.length) && g.matchesWith name patternMatchOptions &&
        decide (p + 1 = q)) := by
  rw [CompiledPattern.advance, h]
  dsimp only
  split_ifs with hc
  · simp only [Nat.zero_or, BitSet.testBit_one_shiftLeft, hc, Bool.true_and]
  · simp_all

omit wf in
theorem testBit_advance_star2 {p : Nat} (h : cp.components[p]? = some .star2) (name : String)
    (q : Nat) : (cp.advance name 0 p).testBit q = (!startsWithDot name.toList && decide (p = q)) := by
  rw [CompiledPattern.advance, h]
  dsimp only
  split_ifs with hc
  · simp only [Nat.zero_or, BitSet.testBit_one_shiftLeft, hc, Bool.true_and]
  · simp_all

omit wf in
/-- What a position accepts of a directory and a rest below it: a rest its successors accept,
or past a `**` what the next position accepts. -/
theorem acceptsPath_drop_dir {name : String} (ok : NamesOk [name.toList])
    {rest : List (List Char)} (ne : rest ≠ []) (p : Nat) :
    acceptsPath (cp.components.drop p) (name.toList :: rest) = true ↔
      (∃ q, (cp.advance name 0 p).testBit q = true ∧ acceptsPath (cp.components.drop q) rest = true) ∨
      (cp.components[p]? = some .star2 ∧
        acceptsPath (cp.components.drop (p + 1)) (name.toList :: rest) = true) := by
  obtain ⟨x, n, e, -⟩ := ok.head
  obtain ⟨m, names, rfl⟩ := List.exists_cons_of_ne_nil ne
  cases h : cp.components[p]? with
  | none =>
    rw [List.drop_eq_nil_of_le (List.getElem?_eq_none_iff.mp h)]
    simp [acceptsPath, CompiledPattern.advance, h]
  | some c =>
    cases c with
    | star2 =>
      simp only [testBit_advance_star2 h, Bool.and_eq_true, decide_eq_true_eq, true_and]
      rw [drop_eq_cons h, e, acceptsPath_star2_cons, Bool.or_eq_true, or_comm]
      simp [drop_eq_cons h]
    | glob g =>
      rw [drop_eq_cons h, acceptsPath_glob_cons, Bool.and_eq_true, beq_iff_eq]
      simp only [testBit_advance_glob h, Bool.and_eq_true, decide_eq_true_eq, Option.some.injEq,
        reduceCtorEq, false_and, or_false]
      constructor
      · rintro ⟨hg, hr⟩
        exact ⟨p + 1, ⟨⟨acceptsPath_drop_of_le hr, by simpa [Pattern.matchesWith] using hg⟩, rfl⟩, hr⟩
      · rintro ⟨q, ⟨⟨-, hg⟩, rfl⟩, hr⟩
        exact ⟨by simpa [Pattern.matchesWith] using hg, hr⟩

omit wf in
theorem advance_eq_or (name : String) (next p : Nat) :
    cp.advance name next p = next ||| cp.advance name 0 p := by
  unfold CompiledPattern.advance
  split
  · split <;> simp
  · split <;> simp
  · simp

omit wf in
theorem lt_of_testBit_advance {name : String} {p q : Nat}
    (h : (cp.advance name 0 p).testBit q = true) : q < cp.components.length := by
  cases hp : cp.components[p]? with
  | none => simp [CompiledPattern.advance, hp] at h
  | some c =>
    have lt := (List.getElem?_eq_some_iff.mp hp).1
    cases c with
    | star2 => simp only [testBit_advance_star2 hp, Bool.and_eq_true, decide_eq_true_eq] at h; omega
    | glob g => simp only [testBit_advance_glob hp, Bool.and_eq_true, decide_eq_true_eq] at h; omega

omit wf in
/-- The successor state holds the successors of every position of the state. -/
theorem acceptsFrom_nextState (small : cp.components.length ≤ 64) (state : Nat) (name : String)
    (rest : List (List Char)) :
    acceptsFrom cp.components (cp.nextState state name) rest ↔ ∃ p ∈ stateBits state,
      ∃ q, (cp.advance name 0 p).testBit q = true ∧ acceptsPath (cp.components.drop q) rest = true := by
  have bits : ∀ q, (cp.nextState state name).testBit q =
      (stateBits state).any fun p => (cp.advance name 0 p).testBit q := fun q => by
    rw [CompiledPattern.nextState, BitSet.testBit_foldl_or (advance_eq_or name) q, Nat.zero_testBit,
      Bool.false_or]
  simp only [acceptsFrom, mem_stateBits, bits, List.any_eq_true]
  constructor
  · rintro ⟨q, ⟨-, p, hp, hq⟩, h⟩
    exact ⟨p, hp, q, hq, h⟩
  · rintro ⟨p, hp, q, hq, h⟩
    exact ⟨q, ⟨by have := lt_of_testBit_advance hq; omega, p, hp, hq⟩, h⟩

end Positions

/-! ### The state along a walk -/

/-- The state stands for the directories walked: a path below them is accepted exactly when
some position of the state accepts the rest of it. -/
def Tracks (cs : List PatternComponent) (state : Nat) (dirs : List (List Char)) : Prop :=
  ∀ rest, rest ≠ [] → (acceptsPath cs (dirs ++ rest) = true ↔ acceptsFrom cs state rest)

section Tracking

variable {cp : CompiledPattern}

theorem tracks_initial (cs : List PatternComponent) : Tracks cs CompiledPattern.initialState [] := by
  intro rest _
  simp [acceptsFrom, mem_stateBits, CompiledPattern.initialState, BitSet.testBit_one]

theorem Tracks.closure {state : Nat} {dirs : List (List Char)}
    (h : Tracks cp.components state dirs) : Tracks cp.components (cp.closure state) dirs :=
  fun rest ne => (h rest ne).trans (acceptsFrom_closure state rest).symm

variable (wf : cp.Wf) (small : cp.components.length ≤ 63)
include wf small

omit wf in
/-- The step of the walk into a directory. -/
theorem Tracks.nextState {state : Nat} {dirs : List (List Char)}
    (h : Tracks cp.components (cp.closure state) dirs) {name : String} (ok : NamesOk [name.toList]) :
    Tracks cp.components (cp.nextState (cp.closure state) name) (dirs ++ [name.toList]) := by
  intro rest ne
  rw [List.append_assoc, List.singleton_append, h _ (List.cons_ne_nil _ _),
    acceptsFrom_nextState (by omega)]
  constructor
  · rintro ⟨p, hp, hA⟩
    exact exists_of_closure (by omega) state (A := fun p =>
        acceptsPath (cp.components.drop p) (name.toList :: rest) = true)
      (fun p hA => acceptsPath_drop_of_le hA) (fun p hA => (acceptsPath_drop_dir ok ne p).mp hA) hp hA
  · rintro ⟨p, hp, hL⟩
    exact ⟨p, hp, (acceptsPath_drop_dir ok ne p).mpr (.inl hL)⟩

/-- A blob in a directory is accepted exactly when the walk keeps it. -/
theorem Tracks.keeps {state : Nat} {dirs : List (List Char)}
    (h : Tracks cp.components (cp.closure state) dirs) {name : String} (ok : NamesOk [name.toList]) :
    acceptsPath cp.components (dirs ++ [name.toList]) =
      ((stateBits (cp.closure state)).any cp.acceptsBlobsAt &&
        (stateBits (cp.closure state)).any (cp.keepsAt name)) := by
  have keeps : ∀ p, cp.keepsAt name p = true → cp.acceptsBlobsAt p = true := by
    intro p hp
    unfold CompiledPattern.keepsAt at hp
    unfold CompiledPattern.acceptsBlobsAt
    split at hp <;> simp_all
  rw [Bool.eq_iff_iff, h _ (List.cons_ne_nil _ _), Bool.and_eq_true, List.any_eq_true, List.any_eq_true]
  constructor
  · rintro ⟨p, hp, hA⟩
    obtain ⟨q, hq, hL⟩ := exists_of_closure (by omega) state (A := fun p =>
        acceptsPath (cp.components.drop p) [name.toList] = true) (L := fun p => cp.keepsAt name p = true)
      (fun p hA => acceptsPath_drop_of_le hA)
      (fun p hA => by
        rw [acceptsPath_drop_last wf ok] at hA
        simpa using hA) hp hA
    exact ⟨⟨q, hq, keeps q hL⟩, q, hq, hL⟩
  · rintro ⟨-, p, hp, hL⟩
    exact ⟨p, hp, by rw [acceptsPath_drop_last wf ok, hL, Bool.true_or]⟩

end Tracking

/-! ### The walk against the full-path walk -/

theorem pathChars_append_singleton {dirs : List (List Char)} (ne : dirs ≠ []) (n : List Char) :
    pathChars (dirs ++ [n]) = pathChars dirs ++ '/' :: n := by
  induction dirs with
  | nil => exact absurd rfl ne
  | cons d dirs ih =>
    cases dirs with
    | nil => rfl
    | cons d' dirs =>
      have e : pathChars (d :: d' :: dirs ++ [n]) = d ++ '/' :: pathChars (d' :: dirs ++ [n]) := rfl
      rw [e, ih (List.cons_ne_nil _ _)]
      simp

/-- `remove_pred`'s path buffer holds the text of the names walked. -/
theorem toList_joinPath {path : String} {dirs : List (List Char)} (names : NamesOk dirs)
    (hpath : path.toList = pathChars dirs) (name : String) :
    (joinPath path name).toList = pathChars (dirs ++ [name.toList]) := by
  by_cases ne : dirs = []
  · subst ne
    obtain rfl : path = "" := String.toList_eq_nil_iff.mp hpath
    simp [joinPath]
  · have full : path ≠ "" := fun e => pathChars_ne_nil names ne (by rw [← hpath, e]; rfl)
    have : path.isEmpty = false := by simpa [String.isEmpty_iff] using full
    simp [joinPath, this, hpath, pathChars_append_singleton ne]

theorem namesOk_of_validName {name : String} (h : ValidName name) : NamesOk [name.toList] := by
  intro n hn
  rw [List.mem_singleton.mp hn]
  exact ⟨fun e => h.1 (String.toList_eq_nil_iff.mp e), h.2.1⟩

theorem NamesOk.append {dirs more : List (List Char)} (h : NamesOk dirs) (h' : NamesOk more) :
    NamesOk (dirs ++ more) := fun n hn => (List.mem_append.mp hn).elim (h n) (h' n)

section Walk

variable {cp : CompiledPattern}

theorem closure_zero (cp : CompiledPattern) : cp.closure 0 = 0 :=
  Nat.eq_of_testBit_eq fun q => by
    rw [Nat.zero_testBit, Bool.eq_false_iff]
    intro h
    rw [closure_eq_closeUp, BitSet.testBit_closeUp] at h
    simp at h

theorem stateBits_zero : stateBits 0 = [] := by
  simp [stateBits, BitSet.members]

/-- From the empty state nothing is kept. -/
theorem removePatternEntries_zero : ∀ es : List Entry, removePatternEntries cp 0 false es = .ok []
  | [] => rfl
  | (name, mode, o) :: rest => by
    have next : cp.nextState 0 name = 0 := by simp [CompiledPattern.nextState, stateBits_zero]
    simp only [removePatternEntries, next, if_true, removePatternEntries_zero rest, Bool.false_and]
    split <;> simp [emptyId]

theorem removePatternInner_zero (es : List Entry) : removePatternInner cp 0 (.tree es) = .ok emptyId := by
  simp [removePatternInner, closure_zero, stateBits_zero, removePatternEntries_zero, emptyId]

variable (wf : cp.Wf)
include wf

/-- The full-path predicate at the path of some names is the component-wise acceptance. -/
theorem fullPathPred_eq {path : String} {names : List (List Char)} (ok : NamesOk names)
    (ne : names ≠ []) (hpath : path.toList = pathChars names) :
    cp.fullPathPred path true = acceptsPath cp.components names := by
  rw [CompiledPattern.fullPathPred, Bool.true_and, Pattern.matchesWith, ← wf.full, hpath]
  exact Bool.eq_iff_iff.mpr (beq_iff_eq.trans (pathMatch_eq_match_iff wf.components ok ne))

variable (small : cp.components.length ≤ 63)
include small

/-- What the walk owes the full-path walk at an object: the same tree from any state that
tracks the directories walked. -/
def WalkAgrees (cp : CompiledPattern) (o : Obj) : Prop :=
  ∀ (state : Nat) (path : String) (dirs : List (List Char)), Tracks cp.components state dirs →
    path.toList = pathChars dirs → NamesOk dirs →
    removePatternInner cp state o = removePredInner cp.fullPathPred path o

theorem removePatternEntries_eq {state : Nat} {path : String} {dirs : List (List Char)}
    (tracks : Tracks cp.components (cp.closure state) dirs) (hpath : path.toList = pathChars dirs)
    (names : NamesOk dirs) :
    ∀ es : List Entry, (∀ e ∈ es, EntryWf e) → (∀ e ∈ es, e.2.1.isTree → WalkAgrees cp e.2.2) →
      removePatternEntries cp (cp.closure state)
          ((stateBits (cp.closure state)).any cp.acceptsBlobsAt) es =
        removePredEntries cp.fullPathPred path es
  | [], _, _ => rfl
  | (name, mode, o) :: rest, entries, ih => by
    have ew := entries _ List.mem_cons_self
    have ok := namesOk_of_validName ew.name
    have later := removePatternEntries_eq tracks hpath names rest
      (fun e he => entries e (List.mem_cons_of_mem _ he)) (fun e he => ih e (List.mem_cons_of_mem _ he))
    have hpath' := toList_joinPath names hpath name
    by_cases hm : mode.isTree
    · -- a subtree: pruned on an empty successor state, where the full-path walk keeps nothing
      obtain ⟨es, rfl⟩ : ∃ es, o = .tree es := by
        cases o with
        | tree es => exact ⟨es, rfl⟩
        | blob d => exact absurd (hm.symm.trans ew.kind) (by simp [Obj.isTree])
      have sub : removePatternInner cp (cp.nextState (cp.closure state) name) (.tree es) =
          removePredInner cp.fullPathPred (joinPath path name) (.tree es) :=
        ih _ List.mem_cons_self hm (cp.nextState (cp.closure state) name)
          (joinPath path name) (dirs ++ [name.toList]) (tracks.nextState small ok) hpath' (names.append ok)
      simp only [removePatternEntries, removePredEntries, hm, if_true]
      split
      · rename_i zero
        rw [← sub, zero, removePatternInner_zero, later]
      · rw [sub, later]
    · by_cases hc : mode = .commit
      · subst hc
        simp only [removePatternEntries, removePredEntries, Mode.isTree, if_true, Bool.false_eq_true,
          if_false, later]
      · have keep := tracks.keeps wf small ok
        rw [← fullPathPred_eq wf (names.append ok) (by simp) hpath'] at keep
        simp only [removePatternEntries, removePredEntries, hm, hc, if_false, Bool.false_eq_true,
          ← keep, later]

theorem walkAgrees (o : Obj) : o.wf → o.isTree → WalkAgrees cp o := by
  induction o with
  | blob d => simp [Obj.isTree]
  | tree es ih =>
    intro owf _ state path dirs tracks hpath names
    obtain ⟨_, _, entries⟩ := (wf_tree_iff es).mp owf
    have agree := removePatternEntries_eq wf small tracks.closure hpath names es entries
      fun e he hm => ih e he (entries e he).wf (hm ▸ (entries e he).kind.symm)
    simp only [removePatternInner, removePredInner, agree]

end Walk

/-! ### What `remove_pred` keeps -/

/-- What becomes of the leaf at `path`: kept when it is not a gitlink and `pred` accepts the
path. -/
def predLeaf (pred : String → Bool → Bool) (path : String) : Mode × Obj → Option (Mode × Obj)
  | (m, o) => if m ≠ .commit ∧ pred path true = true then some (m, o) else none

section PredLeaves

variable {pred : String → Bool → Bool}

theorem entryLeaves_bind_predLeaf {m : Mode} (hm : m.isTree = false) (o : Obj) (path : String)
    (qs : List String) :
    (entryLeaves (m, o) qs).bind (predLeaf pred path) =
      if qs = [] then predLeaf pred path (m, o) else none := by
  by_cases hq : qs = [] <;> simp [entryLeaves, hm, hq]

/-- An entry the walk drops has no leaf left below its name. -/
theorem entriesLeaves_dropped {root n : String} {rest out : List Entry} (absent : n ∉ rest.map (·.1))
    (h : ∀ p, entriesLeaves out p = (entriesLeaves rest p).bind (predLeaf pred (joinPaths root p)))
    (qs : List String) : entriesLeaves out (n :: qs) = none := by
  rw [h, entriesLeaves_of_not_mem absent, Option.bind_none]

/-- The kept entries have the leaves of the input that `predLeaf` keeps at their full paths, given
that every subtree has that law below its own path and the names are unique. -/
theorem entriesLeaves_removePredEntries (root : String) :
    ∀ (es out : List Entry),
      (∀ e ∈ es, ∀ s, removePredInner pred (joinPath root e.1) e.2.2 = .ok s →
        ∀ p, s.leaves p = (e.2.2.leaves p).bind (predLeaf pred (joinPaths (joinPath root e.1) p))) →
      (es.map (·.1)).Nodup → removePredEntries pred root es = .ok out →
      ∀ p, entriesLeaves out p = (entriesLeaves es p).bind (predLeaf pred (joinPaths root p))
  | [], out, _, _, h, p => by
    obtain rfl : [] = out := by simpa [removePredEntries] using h
    rfl
  | (n, m, o) :: rest, out, ih, nodup, h, p => by
    rcases p with _ | ⟨q, qs⟩
    · simp [entriesLeaves_nil_path]
    rw [List.map_cons, List.nodup_cons] at nodup
    have recurse := fun out' hout' =>
      entriesLeaves_removePredEntries root rest out' (fun e he => ih e (List.mem_cons_of_mem _ he))
        nodup.2 hout'
    -- the full path of the entry's own leaves
    have here : joinPaths root (n :: qs) = joinPaths (joinPath root n) qs := rfl
    by_cases hm : m.isTree
    · simp only [removePredEntries, hm, if_true] at h
      obtain ⟨s, hs, h⟩ := Except.bind_eq_ok.mp h
      obtain ⟨out', hout', h⟩ := Except.bind_eq_ok.mp h
      obtain rfl := (Except.ok.inj h).symm
      have sub := ih (n, m, o) List.mem_cons_self s hs qs
      by_cases hn : n = q
      · subst hn
        by_cases empty : s = emptyId
        · subst empty
          have nothing : emptyId.leaves qs = none := by cases qs <;> rfl
          rw [nothing] at sub
          simp only [ne_eq, not_true_eq_false, if_false, entriesLeaves_dropped nodup.1 (recurse out' hout'),
            entriesLeaves, if_true, entryLeaves, hm, here]
          exact sub
        · simp [entriesLeaves, entryLeaves, hm, empty, sub, here]
      · have := recurse out' hout' (q :: qs)
        split <;> simp_all [entriesLeaves]
    · have hm' : m.isTree = false := by simpa using hm
      by_cases hc : m = .commit
      · simp only [removePredEntries, hc, if_true, Mode.isTree, Bool.false_eq_true, if_false] at h
        by_cases hn : n = q
        · subst hn hc
          rw [entriesLeaves_dropped nodup.1 (recurse out h), entriesLeaves, if_pos rfl,
            entryLeaves_bind_predLeaf hm']
          simp [predLeaf]
        · simp [entriesLeaves, hn, recurse out h]
      · simp only [removePredEntries, hm', hc, Bool.false_eq_true, if_false] at h
        split at h
        · rename_i accepted
          obtain ⟨out', hout', h⟩ := Except.bind_eq_ok.mp h
          obtain rfl := (Except.ok.inj h).symm
          by_cases hn : n = q
          · subst hn
            rw [entriesLeaves, if_pos rfl, entriesLeaves, if_pos rfl, entryLeaves_bind_predLeaf hm']
            by_cases hq : qs = [] <;> simp [entryLeaves, hm', hq, predLeaf, hc, accepted, joinPaths]
          · simp [entriesLeaves, hn, recurse out' hout']
        · rename_i rejected
          by_cases hn : n = q
          · subst hn
            rw [entriesLeaves_dropped nodup.1 (recurse out h), entriesLeaves, if_pos rfl,
              entryLeaves_bind_predLeaf hm']
            by_cases hq : qs = [] <;> simp [hq, predLeaf, rejected, joinPaths]
          · simp [entriesLeaves, hn, recurse out h]

/-- The tree `remove_pred` keeps has the leaves of the input that `predLeaf` keeps at their full
paths. -/
theorem leaves_removePredInner (o : Obj) :
    ∀ root, o.wf → ∀ s, removePredInner pred root o = .ok s →
      ∀ p, s.leaves p = (o.leaves p).bind (predLeaf pred (joinPaths root p)) := by
  induction o with
  | blob d => intro _ _ s h; simp [removePredInner] at h
  | tree es ih =>
    intro root wf s h p
    obtain ⟨_, nodup, entries⟩ := (wf_tree_iff es).mp wf
    obtain ⟨out, hout, h⟩ := Except.bind_eq_ok.mp h
    obtain rfl := Except.ok.inj h
    exact entriesLeaves_removePredEntries root es out (fun e he => ih e he _ (entries e he).wf)
      nodup hout p

theorem removePredEntries_ok (root : String) :
    ∀ es : List Entry, (∀ e ∈ es, e.2.1.isTree →
      ∃ s, removePredInner pred (joinPath root e.1) e.2.2 = .ok s) →
      ∃ out, removePredEntries pred root es = .ok out
  | [], _ => ⟨[], rfl⟩
  | (n, m, o) :: rest, h => by
    obtain ⟨out, hout⟩ := removePredEntries_ok root rest fun e he => h e (List.mem_cons_of_mem _ he)
    by_cases hm : m.isTree
    · obtain ⟨s, hs⟩ := h _ List.mem_cons_self hm
      exact ⟨if s ≠ emptyId then (n, m, s) :: out else out,
        by simp only [removePredEntries, hm, if_true, hs, hout, Except.ok_bind]⟩
    · by_cases hc : m = .commit
      · subst hc
        exact ⟨out, by simp [removePredEntries, Mode.isTree, hout]⟩
      · by_cases accepted : pred (joinPath root n) true
        · exact ⟨(n, m, o) :: out, by simp [removePredEntries, hm, hc, accepted, hout]⟩
        · exact ⟨out, by simp [removePredEntries, hm, hc, accepted, hout]⟩

/-- On a well-formed tree `remove_pred` succeeds: every tree entry holds a tree. -/
theorem removePredInner_ok (o : Obj) : ∀ root, o.wf → o.isTree → ∃ s, removePredInner pred root o = .ok s := by
  induction o with
  | blob d => simp [Obj.isTree]
  | tree es ih =>
    intro root wf _
    obtain ⟨_, _, entries⟩ := (wf_tree_iff es).mp wf
    obtain ⟨out, hout⟩ := removePredEntries_ok root es fun e he hm =>
      ih e he _ (entries e he).wf (hm ▸ (entries e he).kind.symm)
    exact ⟨.tree out, by simp [removePredInner, hout]⟩

end PredLeaves

/-- The path `diff_paths` and `remove_pred` build for valid names is the text of the names. -/
theorem toList_joinPaths :
    ∀ {root : String} {dirs : List (List Char)}, NamesOk dirs → root.toList = pathChars dirs →
      ∀ names : List String, (∀ n ∈ names, ValidName n) →
        (joinPaths root names).toList = pathChars (dirs ++ names.map String.toList)
  | _, _, _, hroot, [], _ => by simpa [joinPaths] using hroot
  | root, dirs, ok, hroot, n :: names, valid => by
    have hn := namesOk_of_validName (valid n List.mem_cons_self)
    have later := toList_joinPaths (ok.append hn) (toList_joinPath ok hroot n) names
      fun m hm => valid m (List.mem_cons_of_mem n hm)
    simpa [joinPaths] using later

/-- Under `PATTERN_MATCH_OPTIONS` the whole compiled glob matches the path of some valid names
exactly when its components accept the names one by one: a glob component one name, a `**` any
run of names that do not start with a dot. -/
theorem full_match_iff_components {pattern : String} {cp : CompiledPattern}
    (h : CompiledPattern.compile pattern = .ok cp) {names : List String}
    (valid : ∀ n ∈ names, ValidName n) (ne : names ≠ []) :
    cp.full.matchesWith (joinPaths "" names) patternMatchOptions =
      acceptsPath cp.components (names.map String.toList) := by
  have ok : NamesOk (names.map String.toList) := fun n hn => by
    obtain ⟨m, hm, rfl⟩ := List.mem_map.mp hn
    exact namesOk_of_validName (valid m hm) _ List.mem_cons_self
  have text : (joinPaths "" names).toList = pathChars ([] ++ names.map String.toList) :=
    toList_joinPaths (fun _ h => absurd h List.not_mem_nil) rfl names valid
  have := fullPathPred_eq (compile_wf h) ok (by simpa using ne) (by simpa using text)
  simpa [CompiledPattern.fullPathPred] using this

/- `src/**/*.rs` matches `src/a/b.rs` and sees it as `src`, then a `**` over `a`, then `*.rs`. -/
theorem full_match_iff_components_on_src :
    ∃ cp, CompiledPattern.compile "src/**/*.rs" = .ok cp ∧ (∀ n ∈ ["src", "a", "b.rs"], ValidName n) ∧
      ["src", "a", "b.rs"] ≠ [] ∧
      cp.full.matchesWith (joinPaths "" ["src", "a", "b.rs"]) patternMatchOptions =
        acceptsPath cp.components (["src", "a", "b.rs"].map String.toList) :=
  ⟨_, rfl, by decide, by simp,
    @full_match_iff_components "src/**/*.rs" _ rfl ["src", "a", "b.rs"] (by decide) (by simp)⟩

/-! ### The `Op::Pattern` arm -/

theorem small_of_wf {cp : CompiledPattern} (wf : cp.Wf) (fb : cp.fallback = false) :
    cp.components.length ≤ 63 := by
  have := wf.fallback
  rw [fb] at this
  simpa using this

/-- The component-wise walk keeps what the full-path walk keeps: for a compiled pattern within the
state mask, on every well-formed tree, `remove_pattern` from the initial state gives the tree
`remove_pred` gives with the whole pattern matched against each blob's full path. -/
theorem remove_pattern_eq_remove_pred {pattern : String} {cp : CompiledPattern}
    (h : CompiledPattern.compile pattern = .ok cp) (fb : cp.fallback = false) {t : Obj}
    (wf : t.wf) (ht : t.isTree) :
    removePatternInner cp CompiledPattern.initialState t = removePredInner cp.fullPathPred "" t :=
  walkAgrees (compile_wf h) (small_of_wf (compile_wf h) fb) t wf ht _ "" [] (tracks_initial _) rfl
    (fun _ h => absurd h List.not_mem_nil)

/- The pattern `docs/**` over a tree with a file beside `docs` and one below it. -/
theorem remove_pattern_eq_remove_pred_on_docs :
    ∃ cp, CompiledPattern.compile "docs/**" = .ok cp ∧ cp.fallback = false ∧
      (Obj.tree [("a.md", .blob, .blob [1]), ("docs", .tree, .tree [("b.md", .blob, .blob [2])])]).wf ∧
      (Obj.tree [("a.md", .blob, .blob [1]), ("docs", .tree, .tree [("b.md", .blob, .blob [2])])]).isTree ∧
      removePatternInner cp CompiledPattern.initialState
          (.tree [("a.md", .blob, .blob [1]), ("docs", .tree, .tree [("b.md", .blob, .blob [2])])]) =
        removePredInner cp.fullPathPred ""
          (.tree [("a.md", .blob, .blob [1]), ("docs", .tree, .tree [("b.md", .blob, .blob [2])])]) :=
  ⟨_, rfl, rfl, by decide, rfl, @remove_pattern_eq_remove_pred "docs/**" _ rfl rfl _ (by decide) rfl⟩

/-- A `::glob` filter on a tree keeps exactly the blobs whose full path the glob matches: the
leaf at a path survives when it is not a gitlink and the whole pattern matches the path, and
every other leaf is gone. -/
theorem pattern_filter_keeps_matching_blobs (env : ApplyEnv) {glob : String} {cp : CompiledPattern}
    (h : CompiledPattern.compile glob = .ok cp) {t : Obj} (wf : t.wf) (ht : t.isTree) :
    ∃ x, apply env.withPattern (.pattern glob) (.fromTree t) = .ok x ∧
      ∀ p, x.tree.leaves p = (t.leaves p).bind (predLeaf cp.fullPathPred (joinPaths "" p)) := by
  obtain ⟨s, hs⟩ := @removePredInner_ok cp.fullPathPred t "" wf ht
  -- both walks of the arm give the tree of the full-path walk
  have walk : patternTree cp t = .ok s := by
    unfold patternTree
    split
    · exact hs
    · rename_i fb
      rw [walkAgrees (compile_wf h) (small_of_wf (compile_wf h) (by simpa using fb)) t wf ht _ "" []
        (tracks_initial _) rfl (fun _ h => absurd h List.not_mem_nil)]
      exact hs
  refine ⟨if s = t then .fromTree t else (Rewrite.fromTree t).withTree s, ?_, fun p => ?_⟩
  · simp only [apply, Op.depth, applyImpl, peelOp, ApplyEnv.withPattern, h, walk, Rewrite.tree_fromTree,
      Except.ok_bind]
    rfl
  · have leaves := leaves_removePredInner t "" wf s hs p
    split
    · rename_i same
      rw [Rewrite.tree_fromTree, ← leaves, same]
    · rw [Rewrite.fromTree_withTree, Rewrite.tree_fromTree, leaves]

/- `docs/**` keeps `docs/b.md` and drops `a.md`. -/
theorem pattern_filter_keeps_matching_blobs_on_docs :
    ∃ cp, CompiledPattern.compile "docs/**" = .ok cp ∧
      (Obj.tree [("a.md", .blob, .blob [1]), ("docs", .tree, .tree [("b.md", .blob, .blob [2])])]).wf ∧
      (Obj.tree [("a.md", .blob, .blob [1]), ("docs", .tree, .tree [("b.md", .blob, .blob [2])])]).isTree ∧
      ∃ x, apply UnapplyEnv.treesOnly.toApplyEnv.withPattern (.pattern "docs/**")
          (.fromTree (.tree [("a.md", .blob, .blob [1]), ("docs", .tree, .tree [("b.md", .blob, .blob [2])])])) =
          .ok x ∧
        ∀ p, x.tree.leaves p =
          ((Obj.tree [("a.md", .blob, .blob [1]), ("docs", .tree, .tree [("b.md", .blob, .blob [2])])]).leaves
            p).bind (predLeaf cp.fullPathPred (joinPaths "" p)) :=
  ⟨_, rfl, by decide, rfl,
    @pattern_filter_keeps_matching_blobs UnapplyEnv.treesOnly.toApplyEnv "docs/**" _ rfl _ (by decide) rfl⟩

end Josh
