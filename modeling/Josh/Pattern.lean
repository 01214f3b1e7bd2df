import Josh.Glob.Semantics

/-! The compiled glob of an `Op::Pattern`, `josh-filter/src/pattern.rs`: the pattern is cut into
its `/`-separated components, each a `**` or a glob of one name, for the component-wise walk of
`remove_pattern`. Under `PATTERN_MATCH_OPTIONS` only a literal `/` of the pattern matches a `/`
of a path and no `*`, `?` or class reaches past one, so matching a whole path is matching its
names one component at a time. -/

namespace Josh

open Glob

/-- `PATTERN_MATCH_OPTIONS`. -/
def patternMatchOptions : MatchOptions := ⟨true, true, true⟩

@[simp] theorem patternMatchOptions_caseSensitive : patternMatchOptions.caseSensitive = true := rfl

@[simp] theorem patternMatchOptions_requireLiteralSeparator :
    patternMatchOptions.requireLiteralSeparator = true := rfl

@[simp] theorem patternMatchOptions_requireLiteralLeadingDot :
    patternMatchOptions.requireLiteralLeadingDot = true := rfl

inductive PatternComponent where
  | star2
  | glob (g : Glob.Pattern)
  deriving DecidableEq, Repr

structure CompiledPattern where
  full : Glob.Pattern
  components : List PatternComponent
  suffixAllStar : List Bool
  fallback : Bool
  deriving DecidableEq, Repr

/-- The loop of `split_pattern_components`: `done` the closed components, `current` the last. -/
def splitLoop : List PatternToken → List (List PatternToken) → List PatternToken →
    List (List PatternToken)
  | [], done, current => done ++ [current]
  | .char '/' :: tokens, done, current => splitLoop tokens (done ++ [current]) []
  | .anyRecursiveSequence :: tokens, done, current =>
    splitLoop tokens (done ++ [current ++ [.anyRecursiveSequence]]) []
  | t :: tokens, done, current => splitLoop tokens done (current ++ [t])

def splitPatternComponents (full : Glob.Pattern) : List (List PatternToken) :=
  let parts := splitLoop full.tokens [] []
  -- the empty component opened after a trailing `**`
  match parts.reverse with
  | [] :: [.anyRecursiveSequence] :: _ => parts.dropLast
  | _ => parts

def compileComponent (tokens : List PatternToken) : PatternComponent :=
  if tokens = [.anyRecursiveSequence] then .star2 else .glob (.fromTokens tokens)

/-- `suffix_all_star`: whether the components from each position on are all `**`. -/
def suffixAllStarOf : List PatternComponent → List Bool
  | [] => []
  | c :: cs =>
    let rest := suffixAllStarOf cs
    (c == .star2 && rest.head?.getD true) :: rest

/-- `CompiledPattern::compile`; more than 63 components do not fit the state mask of the walk. -/
def CompiledPattern.compile (pattern : String) : Except PatternError CompiledPattern := do
  let full ← Glob.Pattern.new pattern
  let components := (splitPatternComponents full).map compileComponent
  .ok ⟨full, components, suffixAllStarOf components, 63 < components.length⟩

/-- `closure`: a `**` at an active position also activates the next one. -/
def CompiledPattern.closure (cp : CompiledPattern) (state : Nat) : Nat :=
  (List.range (cp.components.length - 1)).foldl (fun state p =>
    if state.testBit p && cp.components[p]? == some .star2 then state ||| 1 <<< (p + 1)
    else state) state

def CompiledPattern.initialState : Nat := 1

/-! ### Components and paths -/

def PatternComponent.tokens : PatternComponent → List PatternToken
  | .star2 => [.anyRecursiveSequence]
  | .glob g => g.tokens

/-- The tokens of the components in turn: a `/` after each glob that is not last, none after a
`**`, whose `/` the parser consumed with it. -/
def joinComponents : List PatternComponent → List PatternToken
  | [] => []
  | .star2 :: cs => .anyRecursiveSequence :: joinComponents cs
  | [.glob g] => g.tokens
  | .glob g :: cs => g.tokens ++ .char '/' :: joinComponents cs

-- The equations by name: the overlapping arms make the generated ones costly to build, and the
-- proofs below unfold `joinComponents` many times over.
@[simp] theorem joinComponents_nil : joinComponents [] = [] := rfl

@[simp] theorem joinComponents_star2 (cs : List PatternComponent) :
    joinComponents (.star2 :: cs) = .anyRecursiveSequence :: joinComponents cs := rfl

@[simp] theorem joinComponents_glob_last (g : Glob.Pattern) : joinComponents [.glob g] = g.tokens :=
  rfl

@[simp] theorem joinComponents_glob_cons (g : Glob.Pattern) (c : PatternComponent)
    (cs : List PatternComponent) :
    joinComponents (.glob g :: c :: cs) = g.tokens ++ .char '/' :: joinComponents (c :: cs) := rfl

/-- A glob component matches within one name: it holds neither `**` nor `/`. -/
def PatternComponent.Flat : PatternComponent → Prop
  | .star2 => True
  | .glob g => .anyRecursiveSequence ∉ g.tokens ∧ .char '/' ∉ g.tokens

/-- The components `compile` gives: flat globs, and no empty glob last after a `**`. -/
structure ComponentsWf (cs : List PatternComponent) : Prop where
  flat : ∀ c ∈ cs, c.Flat
  last : ∀ pre g, cs = pre ++ [.star2, .glob g] → g.tokens ≠ []

/-- The text of a path of names joined by `/`. -/
def pathChars : List (List Char) → List Char
  | [] => []
  | [n] => n
  | n :: ns => n ++ '/' :: pathChars ns

@[simp] theorem pathChars_nil : pathChars [] = [] := rfl

@[simp] theorem pathChars_single (n : List Char) : pathChars [n] = n := rfl

@[simp] theorem pathChars_cons_cons (n m : List Char) (ns : List (List Char)) :
    pathChars (n :: m :: ns) = n ++ '/' :: pathChars (m :: ns) := rfl

def startsWithDot (name : List Char) : Bool := name.head? == some '.'

@[simp] theorem startsWithDot_nil : startsWithDot [] = false := rfl

@[simp] theorem startsWithDot_cons (x : Char) (n : List Char) : startsWithDot (x :: n) = (x == '.') :=
  rfl

/-- Names as a tree has them: not empty and without `/`. -/
def NamesOk (names : List (List Char)) : Prop := ∀ n ∈ names, n ≠ [] ∧ '/' ∉ n

/-- A path matched component by component: a glob matches one name, a `**` any names that do
not start with a dot, and the last name is matched by the last component, or by a `**` with
only `**`s after it. -/
def acceptsPath : List PatternComponent → List (List Char) → Bool
  | [], _ => false
  | _, [] => false
  | .glob g :: cs, [n] => cs.isEmpty && matchesFrom patternMatchOptions g.tokens true n == .match
  | .glob g :: cs, n :: ns =>
    matchesFrom patternMatchOptions g.tokens true n == .match && acceptsPath cs ns
  | .star2 :: cs, n :: ns =>
    acceptsPath cs (n :: ns) ||
      (!startsWithDot n && (ns.isEmpty && cs.all (· == .star2) || acceptsPath (.star2 :: cs) ns))
termination_by cs ns => (ns.length, cs.length)

/-! ### One name at a time -/

section Factor

theorem charsEq_sensitive (a b : Char) : charsEq a b true = (a == b) := by
  simp [charsEq]

/-- Only a literal `/` matches a separator. -/
theorem singleMatches_slash {t : PatternToken} (ht : t ≠ .char '/') (fs : Bool) :
    singleMatches patternMatchOptions fs '/' t = false := by
  cases t with
  | char c =>
    have : ('/' == c) = false := beq_false_of_ne fun e => ht (e ▸ rfl)
    show charsEq '/' c true = false
    rw [charsEq_sensitive, this]
  | _ => rfl

/-- The loop of a `*` before the `/` that ends its name: a `*` never consumes the `/`, so it
finds what the search of the name finds, and the `/` decides nothing. -/
theorem sequenceLoop_before_slash {f : Bool → List Char → MatchResult}
    {P : Bool → List Char → Bool} {R : MatchResult} {r : List Char} :
    ∀ {n : List Char}, '/' ∉ n →
      (∀ fs u, u <:+ n → f fs (u ++ '/' :: r) = if P fs u then R else .subPatternDoesntMatch) →
      ∀ fs, (f fs (n ++ '/' :: r)).orElse
          (sequenceLoop patternMatchOptions false f fs (n ++ '/' :: r)) =
        if P fs n || searchLoop patternMatchOptions false P fs n then R
        else .subPatternDoesntMatch
  | [], _, hrest, fs => by
    have slash : sequenceLoop patternMatchOptions false f fs ('/' :: r) = .subPatternDoesntMatch := by
      simp [sequenceLoop, isSeparator]
    rw [List.nil_append, ← List.nil_append ('/' :: r), hrest fs [] (List.suffix_refl _)]
    by_cases hp : P fs [] <;> cases R <;> simp [hp, searchLoop, slash]
  | x :: n, hn, hrest, fs => by
    have hx : x ≠ '/' := fun e => hn (e ▸ List.mem_cons_self)
    have ih := sequenceLoop_before_slash (n := n) (fun h => hn (List.mem_cons_of_mem x h))
      (fun fs u hu => hrest fs u (hu.trans (List.suffix_cons x n))) false
    have step : sequenceLoop patternMatchOptions false f fs (x :: n ++ '/' :: r) =
        if fs = true ∧ x = '.' then .subPatternDoesntMatch
        else (f false (n ++ '/' :: r)).orElse
          (sequenceLoop patternMatchOptions false f false (n ++ '/' :: r)) := by
      simp [sequenceLoop, isSeparator_of_ne hx]
    have stepS : searchLoop patternMatchOptions false P fs (x :: n) =
        if fs = true ∧ x = '.' then false
        else P false n || searchLoop patternMatchOptions false P false n := by
      simp [searchLoop, isSeparator_of_ne hx]
    rw [hrest fs (x :: n) (List.suffix_refl _), step, stepS, ih]
    by_cases hp : P fs (x :: n)
    · have found : (P fs (x :: n) || searchLoop patternMatchOptions false P fs (x :: n)) = true := by
        simp [hp]
      rw [if_pos hp, ← stepS, if_pos found]
      cases R <;> simp
    · rw [if_neg hp, MatchResult.sub_orElse]
      by_cases hd : fs = true ∧ x = '.'
      · rw [if_pos hd, if_pos hd]
        simp [hp]
      · rw [if_neg hd, if_neg hd]
        simp [hp]

/-- A glob component cannot match past the end of its name. -/
theorem matchesFrom_component_rest {tokens : List PatternToken}
    (flat : .anyRecursiveSequence ∉ tokens) (noSep : .char '/' ∉ tokens) {n : List Char}
    (hn : '/' ∉ n) (r : List Char) (fs : Bool) :
    matchesFrom patternMatchOptions tokens fs (n ++ '/' :: r) = .subPatternDoesntMatch := by
  induction tokens generalizing fs n with
  | nil => cases n <;> simp [matchesFrom]
  | cons t tokens ih =>
    have flat' : .anyRecursiveSequence ∉ tokens := fun h => flat (List.mem_cons_of_mem t h)
    have noSep' : .char '/' ∉ tokens := fun h => noSep (List.mem_cons_of_mem t h)
    by_cases hs : t = .anySequence
    · subst hs
      have loop := sequenceLoop_before_slash (f := matchesFrom patternMatchOptions tokens)
        (P := fun _ _ => false) (R := .subPatternDoesntMatch) hn
        (fun fs u hu => by rw [ih flat' noSep' (fun h => hn (hu.subset h)) fs]; rfl) fs
      exact loop.trans (ite_self _)
    · have hr : t ≠ .anyRecursiveSequence := fun e => flat (e ▸ List.mem_cons_self)
      have hc : t ≠ .char '/' := fun e => noSep (e ▸ List.mem_cons_self)
      have step : ∀ c file, matchesFrom patternMatchOptions (t :: tokens) fs (c :: file) =
          if !singleMatches patternMatchOptions fs c t then .subPatternDoesntMatch
          else matchesFrom patternMatchOptions tokens (isSeparator c) file := by
        intro c file
        cases t <;> first | exact absurd rfl hs | exact absurd rfl hr | rfl
      cases n with
      | nil => simp [step, singleMatches_slash hc]
      | cons x n =>
        rw [List.cons_append, step]
        split
        · rfl
        · exact ih flat' noSep' (fun h => hn (List.mem_cons_of_mem x h)) _

/-- A glob component followed by its `/`, against a name followed by a `/`: the component
matches the name, as its search does, and the rest of the pattern the rest of the path. -/
theorem matchesFrom_component_slash {tokens : List PatternToken}
    (flat : .anyRecursiveSequence ∉ tokens) (noSep : .char '/' ∉ tokens) {n : List Char}
    (hn : '/' ∉ n) (after : List PatternToken) (r : List Char) (fs : Bool) :
    matchesFrom patternMatchOptions (tokens ++ .char '/' :: after) fs (n ++ '/' :: r) =
      if search patternMatchOptions tokens fs n then matchesFrom patternMatchOptions after true r
      else .subPatternDoesntMatch := by
  induction tokens generalizing fs n with
  | nil =>
    cases n with
    | nil => simp [matchesFrom, singleMatches, patternMatchOptions, charsEq_sensitive, search, isSeparator]
    | cons x n =>
      have hx : x ≠ '/' := fun e => hn (e ▸ List.mem_cons_self)
      simp [matchesFrom, singleMatches, patternMatchOptions, charsEq_sensitive, search, hx]
  | cons t tokens ih =>
    have flat' : .anyRecursiveSequence ∉ tokens := fun h => flat (List.mem_cons_of_mem t h)
    have noSep' : .char '/' ∉ tokens := fun h => noSep (List.mem_cons_of_mem t h)
    by_cases hs : t = .anySequence
    · subst hs
      have loop := sequenceLoop_before_slash
        (f := matchesFrom patternMatchOptions (tokens ++ .char '/' :: after))
        (P := search patternMatchOptions tokens) (R := matchesFrom patternMatchOptions after true r) hn
        (fun fs u hu => ih flat' noSep' (fun h => hn (hu.subset h)) fs) fs
      rw [List.cons_append]
      exact loop
    · have hr : t ≠ .anyRecursiveSequence := fun e => flat (e ▸ List.mem_cons_self)
      have hc : t ≠ .char '/' := fun e => noSep (e ▸ List.mem_cons_self)
      have step : ∀ c file, matchesFrom patternMatchOptions (t :: (tokens ++ .char '/' :: after)) fs
          (c :: file) = if !singleMatches patternMatchOptions fs c t then .subPatternDoesntMatch
          else matchesFrom patternMatchOptions (tokens ++ .char '/' :: after) (isSeparator c) file := by
        intro c file
        cases t <;> first | exact absurd rfl hs | exact absurd rfl hr | rfl
      have stepS : ∀ c file, search patternMatchOptions (t :: tokens) fs (c :: file) =
          (singleMatches patternMatchOptions fs c t && search patternMatchOptions tokens (isSeparator c) file) := by
        intro c file
        cases t <;> first | exact absurd rfl hs | exact absurd rfl hr | rfl
      have stepS₀ : search patternMatchOptions (t :: tokens) fs [] = false := by
        cases t <;> first | exact absurd rfl hs | exact absurd rfl hr | rfl
      rw [List.cons_append]
      cases n with
      | nil => simp [step, stepS₀, singleMatches_slash hc]
      | cons x n =>
        rw [List.cons_append, step, stepS]
        by_cases hm : singleMatches patternMatchOptions fs x t
        · simp only [hm, Bool.not_true, Bool.false_eq_true, if_false, Bool.true_and]
          exact ih flat' noSep' (fun h => hn (List.mem_cons_of_mem x h)) _
        · simp [hm]

/-- Inside a name a `**` reads on without trying, and tries again after the `/`. -/
theorem sequenceLoop_recursive_inside {f : Bool → List Char → MatchResult} (r : List Char) :
    ∀ {m : List Char}, '/' ∉ m →
      sequenceLoop patternMatchOptions true f false (m ++ '/' :: r) =
        (f true r).orElse (sequenceLoop patternMatchOptions true f true r)
  | [], _ => by simp [sequenceLoop, isSeparator]
  | x :: m, hm => by
    have hx : x ≠ '/' := fun e => hm (e ▸ List.mem_cons_self)
    rw [List.cons_append, ← sequenceLoop_recursive_inside r fun h => hm (List.mem_cons_of_mem x h)]
    simp [sequenceLoop, isSeparator_of_ne hx]

theorem sequenceLoop_recursive_end {f : Bool → List Char → MatchResult} :
    ∀ {m : List Char}, '/' ∉ m → sequenceLoop patternMatchOptions true f false m = f false []
  | [], _ => rfl
  | x :: m, hm => by
    have hx : x ≠ '/' := fun e => hm (e ▸ List.mem_cons_self)
    rw [← sequenceLoop_recursive_end (f := f) (m := m) fun h => hm (List.mem_cons_of_mem x h)]
    simp [sequenceLoop, isSeparator_of_ne hx]

/-- A `**` at the start of a name: a name that starts with a dot stops it. -/
theorem sequenceLoop_recursive_name {f : Bool → List Char → MatchResult} {x : Char}
    {n : List Char} (hn : '/' ∉ x :: n) (r : List Char) :
    sequenceLoop patternMatchOptions true f true (x :: n ++ '/' :: r) =
      if x = '.' then .subPatternDoesntMatch
      else (f true r).orElse (sequenceLoop patternMatchOptions true f true r) := by
  have hx : x ≠ '/' := fun e => hn (e ▸ List.mem_cons_self)
  rw [List.cons_append, ← sequenceLoop_recursive_inside r fun h => hn (List.mem_cons_of_mem x h)]
  by_cases dot : x = '.' <;> simp [sequenceLoop, isSeparator_of_ne hx, dot]

theorem sequenceLoop_recursive_last {f : Bool → List Char → MatchResult} {x : Char}
    {n : List Char} (hn : '/' ∉ x :: n) :
    sequenceLoop patternMatchOptions true f true (x :: n) =
      if x = '.' then .subPatternDoesntMatch else f false [] := by
  have hx : x ≠ '/' := fun e => hn (e ▸ List.mem_cons_self)
  rw [← sequenceLoop_recursive_end (f := f) fun h => hn (List.mem_cons_of_mem x h)]
  by_cases dot : x = '.' <;> simp [sequenceLoop, isSeparator_of_ne hx, dot]

end Factor

/-! ### Whole paths -/

/-- The full-path match of a path's names against the components' tokens. -/
def pathMatch (cs : List PatternComponent) (names : List (List Char)) : MatchResult :=
  matchesFrom patternMatchOptions (joinComponents cs) true (pathChars names)

/-- The components against the text left when the names run out after a `**`. -/
def emptyMatch (cs : List PatternComponent) : MatchResult :=
  matchesFrom patternMatchOptions (joinComponents cs) false []

theorem pathMatch_def (cs : List PatternComponent) (names : List (List Char)) :
    pathMatch cs names = matchesFrom patternMatchOptions (joinComponents cs) true (pathChars names) :=
  rfl

theorem emptyMatch_def (cs : List PatternComponent) :
    emptyMatch cs = matchesFrom patternMatchOptions (joinComponents cs) false [] := rfl

section Paths

theorem NamesOk.suffix {names other : List (List Char)} (h : NamesOk names) (hs : other <:+ names) :
    NamesOk other := fun n hn => h n (hs.subset hn)

theorem NamesOk.head {n : List Char} {names : List (List Char)} (h : NamesOk (n :: names)) :
    ∃ x rest, n = x :: rest ∧ '/' ∉ x :: rest := by
  obtain ⟨ne, hn⟩ := h n List.mem_cons_self
  obtain ⟨x, rest, rfl⟩ := List.exists_cons_of_ne_nil ne
  exact ⟨x, rest, rfl, hn⟩

theorem pathChars_ne_nil {names : List (List Char)} (h : NamesOk names) (ne : names ≠ []) :
    pathChars names ≠ [] := by
  match names, ne with
  | [n], _ => exact (h n List.mem_cons_self).1
  | n :: _ :: _, _ => simp

theorem pathMatch_nil {names : List (List Char)} (h : NamesOk names) (ne : names ≠ []) :
    pathMatch [] names = .subPatternDoesntMatch := by
  simp [pathMatch_def, matchesFrom, pathChars_ne_nil h ne]

theorem pathMatch_star2_last (cs : List PatternComponent) {x : Char} {n : List Char}
    (hn : '/' ∉ x :: n) :
    pathMatch (.star2 :: cs) [x :: n] =
      (pathMatch cs [x :: n]).orElse (if x = '.' then .subPatternDoesntMatch else emptyMatch cs) := by
  simp only [pathMatch_def, emptyMatch_def, joinComponents_star2, pathChars_single, matchesFrom]
  rw [sequenceLoop_recursive_last hn]

theorem pathMatch_star2_cons (cs : List PatternComponent) {x : Char} {n m : List Char}
    {names : List (List Char)} (hn : '/' ∉ x :: n) :
    pathMatch (.star2 :: cs) ((x :: n) :: m :: names) =
      (pathMatch cs ((x :: n) :: m :: names)).orElse
        (if x = '.' then .subPatternDoesntMatch else pathMatch (.star2 :: cs) (m :: names)) := by
  simp only [pathMatch_def, joinComponents_star2, pathChars_cons_cons, matchesFrom]
  rw [sequenceLoop_recursive_name hn]

theorem emptyMatch_star2 (cs : List PatternComponent) : emptyMatch (.star2 :: cs) = emptyMatch cs := by
  simp [emptyMatch_def, matchesFrom, sequenceLoop]

theorem PatternComponent.Flat.glob {g : Glob.Pattern} (h : (PatternComponent.glob g).Flat) :
    .anyRecursiveSequence ∉ g.tokens ∧ .char '/' ∉ g.tokens := h

theorem pathMatch_glob_more {g : Glob.Pattern} (flat : (PatternComponent.glob g).Flat)
    {n m : List Char} {names : List (List Char)} (hn : '/' ∉ n) :
    pathMatch [.glob g] (n :: m :: names) = .subPatternDoesntMatch :=
  matchesFrom_component_rest flat.1 flat.2 hn _ true

/-- With a `/` still to match, one name is too few. -/
theorem pathMatch_glob_short (g : Glob.Pattern) (c : PatternComponent) (cs : List PatternComponent)
    {n : List Char} (hn : '/' ∉ n) : pathMatch (.glob g :: c :: cs) [n] ≠ .match := fun h =>
  hn (matchesFrom_match_char rfl h (by simp))

theorem emptyMatch_glob_cons (g : Glob.Pattern) (c : PatternComponent) (cs : List PatternComponent) :
    emptyMatch (.glob g :: c :: cs) ≠ .match := fun h =>
  List.not_mem_nil (matchesFrom_match_char (c := '/') rfl h (by simp))

theorem pathMatch_glob_cons {g : Glob.Pattern} (flat : (PatternComponent.glob g).Flat)
    (c : PatternComponent) (cs : List PatternComponent) {n m : List Char}
    {names : List (List Char)} (hn : '/' ∉ n) :
    pathMatch (.glob g :: c :: cs) (n :: m :: names) =
      if search patternMatchOptions g.tokens true n then pathMatch (c :: cs) (m :: names)
      else .subPatternDoesntMatch :=
  matchesFrom_component_slash flat.1 flat.2 hn _ _ true

end Paths

/-! ### Acceptance -/

section Accept

theorem ComponentsWf.tail {c : PatternComponent} {cs : List PatternComponent}
    (wf : ComponentsWf (c :: cs)) : ComponentsWf cs where
  flat d hd := wf.flat d (List.mem_cons_of_mem c hd)
  last pre g e := wf.last (c :: pre) g (by rw [e, List.cons_append])

theorem acceptsPath_star2_last (cs : List PatternComponent) (x : Char) (n : List Char) :
    acceptsPath (.star2 :: cs) [x :: n] =
      (acceptsPath cs [x :: n] || (!(x == '.') && cs.all (· == .star2))) := by
  simp [acceptsPath]

theorem acceptsPath_star2_cons (cs : List PatternComponent) (x : Char) (n m : List Char)
    (names : List (List Char)) :
    acceptsPath (.star2 :: cs) ((x :: n) :: m :: names) =
      (acceptsPath cs ((x :: n) :: m :: names) ||
        (!(x == '.') && acceptsPath (.star2 :: cs) (m :: names))) := by
  simp [acceptsPath]

theorem acceptsPath_glob_cons (g : Glob.Pattern) (cs : List PatternComponent) (n m : List Char)
    (names : List (List Char)) :
    acceptsPath (.glob g :: cs) (n :: m :: names) =
      (matchesFrom patternMatchOptions g.tokens true n == .match && acceptsPath cs (m :: names)) := by
  simp [acceptsPath]

theorem acceptsPath_star2_of {cs : List PatternComponent} {names : List (List Char)}
    (h : acceptsPath cs names) : acceptsPath (.star2 :: cs) names := by
  cases names with
  | nil => cases cs <;> simp [acceptsPath] at h
  | cons n names => simp [acceptsPath, h]

/-- A `**` matches where the components after it match a rest of the names, or where only
`**`s follow it. -/
theorem acceptsPath_star2 {cs : List PatternComponent} :
    ∀ {names : List (List Char)}, acceptsPath (.star2 :: cs) names →
      (∃ rest, rest ≠ [] ∧ rest <:+ names ∧ acceptsPath cs rest) ∨ cs.all (· == .star2)
  | [], h => by simp [acceptsPath] at h
  | n :: names, h => by
    simp only [acceptsPath, Bool.or_eq_true, Bool.and_eq_true] at h
    rcases h with here | ⟨-, ⟨-, all⟩ | later⟩
    · exact .inl ⟨n :: names, List.cons_ne_nil n names, List.suffix_refl _, here⟩
    · exact .inr all
    · rcases acceptsPath_star2 later with ⟨rest, ne, hr, found⟩ | all
      · exact .inl ⟨rest, ne, hr.trans (List.suffix_cons n names), found⟩
      · exact .inr all

theorem joinComponents_star2s {cs : List PatternComponent} (h : cs.all (· == .star2)) :
    ∀ t ∈ joinComponents cs, t = .anySequence ∨ t = .anyRecursiveSequence := by
  induction cs with
  | nil => simp
  | cons c cs ih =>
    simp only [List.all_cons, Bool.and_eq_true, beq_iff_eq] at h
    obtain ⟨rfl, h⟩ := h
    simpa using ih h

theorem emptyMatch_star2s {cs : List PatternComponent} (h : cs.all (· == .star2)) :
    emptyMatch cs = .match :=
  matchesFrom_nil_match_iff.mpr (joinComponents_star2s h)

theorem pathMatch_star2s_ne_entire {cs : List PatternComponent} (h : cs.all (· == .star2))
    (names : List (List Char)) : pathMatch cs names ≠ .entirePatternDoesntMatch :=
  matchesFrom_ne_entire (joinComponents_star2s h) _ _

/-- The components that match the empty rest of a path: `**`s, and at most one glob, last,
of `*`s. -/
theorem emptyMatch_eq_match {cs : List PatternComponent} (flat : ∀ c ∈ cs, c.Flat)
    (h : emptyMatch cs = .match) : cs.all (· == .star2) ∨
      ∃ k g, cs = List.replicate k .star2 ++ [.glob g] ∧ ∀ t ∈ g.tokens, t = .anySequence := by
  induction cs with
  | nil => exact .inl rfl
  | cons c cs ih =>
    cases c with
    | star2 =>
      rw [emptyMatch_star2] at h
      rcases ih (fun d hd => flat d (List.mem_cons_of_mem _ hd)) h with all | ⟨k, g, rfl, hg⟩
      · exact .inl (by simpa using all)
      · exact .inr ⟨k + 1, g, by simp [List.replicate_succ], hg⟩
    | glob g =>
      cases cs with
      | cons d cs => exact absurd h (emptyMatch_glob_cons g d cs)
      | nil =>
        have hs := matchesFrom_nil_match_iff.mp h
        refine .inr ⟨0, g, rfl, fun t ht => (hs t ht).resolve_right fun e => ?_⟩
        exact (flat _ List.mem_cons_self).1 (e ▸ ht)

/-- A last glob of `*`s after `**`s accepts every name that does not start with a dot. -/
theorem acceptsPath_anySequences {g : Glob.Pattern} (h : ∀ t ∈ g.tokens, t = .anySequence)
    (ne : g.tokens ≠ []) (k : Nat) {x : Char} {n : List Char} (hn : '/' ∉ x :: n) (dot : x ≠ '.') :
    acceptsPath (List.replicate k .star2 ++ [.glob g]) [x :: n] := by
  induction k with
  | zero =>
    have flat : .anyRecursiveSequence ∉ g.tokens := fun e => nomatch h _ e
    have free : dotBlocked patternMatchOptions true (x :: n) = false := by simp [dotBlocked, dot]
    simp [acceptsPath, ((sound_of_flat _ flat) _ _).1.mpr (search_anySequences h ne hn free)]
  | succ k ih => exact acceptsPath_star2_of ih

end Accept

/-! ### `matches_from` on whole paths -/

/-- What `matches_from` on a path owes `acceptsPath`: the same answer, and a path used up only
where no rest of it is accepted. -/
def PathSpec (cs : List PatternComponent) (names : List (List Char)) : Prop :=
  (pathMatch cs names = .match ↔ acceptsPath cs names = true) ∧
  (pathMatch cs names = .entirePatternDoesntMatch →
    ∀ rest, rest ≠ [] → rest <:+ names → acceptsPath cs rest = false)

section Spec

theorem suffix_tail_of_cons {α : Type} {r : α} {rs : List α} :
    ∀ {l : List α}, r :: rs <:+ l → rs <:+ l.tail
  | [], h => absurd (List.eq_nil_of_suffix_nil h) (List.cons_ne_nil r rs)
  | _ :: l, h => by
    rcases List.suffix_cons_iff.mp h with e | h
    · rw [(List.cons.inj e).2]
      exact List.suffix_refl _
    · exact (List.suffix_cons r rs).trans h

theorem eq_of_suffix_singleton {α : Type} {a : α} {rest : List α} (ne : rest ≠ [])
    (h : rest <:+ [a]) : rest = [a] :=
  (List.suffix_cons_iff.mp h).resolve_right fun h => ne (List.eq_nil_of_suffix_nil h)

theorem pathSpec_nil {names : List (List Char)} (ok : NamesOk names) (ne : names ≠ []) :
    PathSpec [] names := by
  simp [PathSpec, pathMatch_nil ok ne, acceptsPath]

theorem pathSpec_glob_last {g : Glob.Pattern} (flat : (PatternComponent.glob g).Flat)
    {names : List (List Char)} (ok : NamesOk names) (ne : names ≠ []) :
    PathSpec [.glob g] names := by
  match names, ne with
  | [n], _ =>
    refine ⟨by simp [pathMatch_def, acceptsPath], fun e rest rne hr => ?_⟩
    rw [eq_of_suffix_singleton rne hr]
    simp [acceptsPath, show matchesFrom patternMatchOptions g.tokens true n = _ from e]
  | n :: m :: names, _ =>
    obtain ⟨-, hn⟩ := ok n List.mem_cons_self
    simp [PathSpec, pathMatch_glob_more flat hn, acceptsPath]

/-- A glob that is not last needs a further name, accepted by the components after it. -/
theorem acceptsPath_glob_cons_false (g : Glob.Pattern) {c : PatternComponent}
    {cs : List PatternComponent} {names : List (List Char)}
    (none : ∀ rest, rest ≠ [] → rest <:+ names.tail → acceptsPath (c :: cs) rest = false) :
    ∀ rest, rest ≠ [] → rest <:+ names → acceptsPath (.glob g :: c :: cs) rest = false
  | [], ne, _ => absurd rfl ne
  | [r], _, _ => by simp [acceptsPath]
  | r :: r' :: rs, _, hr => by
    rw [acceptsPath_glob_cons, none _ (List.cons_ne_nil r' rs) (suffix_tail_of_cons hr)]
    simp

theorem pathSpec_glob_cons {g : Glob.Pattern} (flat : (PatternComponent.glob g).Flat)
    {c : PatternComponent} {cs : List PatternComponent}
    (ih : ∀ names, NamesOk names → names ≠ [] → PathSpec (c :: cs) names)
    {names : List (List Char)} (ok : NamesOk names) (ne : names ≠ []) :
    PathSpec (.glob g :: c :: cs) names := by
  match names, ne with
  | [n], _ =>
    obtain ⟨-, hn⟩ := ok n List.mem_cons_self
    refine ⟨⟨fun h => absurd h (pathMatch_glob_short g c cs hn), by simp [acceptsPath]⟩,
      fun _ => acceptsPath_glob_cons_false g fun _ rne hr => absurd (List.eq_nil_of_suffix_nil hr) rne⟩
  | n :: m :: names, _ =>
    obtain ⟨-, hn⟩ := ok n List.mem_cons_self
    have spec := ih (m :: names) (ok.suffix (List.suffix_cons n _)) (List.cons_ne_nil m names)
    rw [PathSpec, pathMatch_glob_cons flat c cs hn, acceptsPath_glob_cons]
    cases hs : search patternMatchOptions g.tokens true n with
    | true =>
      have hg := ((sound_of_flat _ flat.1) _ _).1.mpr hs
      rw [if_pos rfl, hg, beq_self_eq_true, Bool.true_and]
      exact ⟨spec.1, fun e => acceptsPath_glob_cons_false g (spec.2 e)⟩
    | false =>
      have hg : matchesFrom patternMatchOptions g.tokens true n ≠ .match := fun h => by
        simp [((sound_of_flat _ flat.1) _ _).1.mp h] at hs
      simp [hg]

/-- Where the components after a `**` gave up on the whole path, the `**` accepts no rest of it
either. -/
theorem star2_none {cs : List PatternComponent} {names : List (List Char)}
    (entire : pathMatch cs names = .entirePatternDoesntMatch)
    (none : ∀ rest, rest ≠ [] → rest <:+ names → acceptsPath cs rest = false) :
    ∀ rest, rest ≠ [] → rest <:+ names → acceptsPath (.star2 :: cs) rest = false := by
  intro rest _ hr
  refine Bool.eq_false_iff.mpr fun h => ?_
  rcases acceptsPath_star2 h with ⟨r, rne, hr', found⟩ | all
  · simp [none r rne (hr'.trans hr)] at found
  · exact pathMatch_star2s_ne_entire all names entire

section Star2

variable {cs : List PatternComponent} (ih : ∀ names, NamesOk names → names ≠ [] → PathSpec cs names)
include ih

theorem pathSpec_star2_last (wf : ComponentsWf (.star2 :: cs)) {x : Char} {n : List Char} (hn : '/' ∉ x :: n) :
    PathSpec (.star2 :: cs) [x :: n] := by
  have ok : NamesOk [x :: n] := by simpa [NamesOk] using hn
  have spec := ih _ ok (List.cons_ne_nil _ _)
  rw [PathSpec, pathMatch_star2_last cs hn, acceptsPath_star2_last]
  refine ⟨⟨fun h => ?_, fun h => ?_⟩, fun e rest rne hr => ?_⟩
  · rcases MatchResult.orElse_eq_match.mp h with h | ⟨-, h⟩
    · simp [spec.1.mp h]
    by_cases dot : x = '.'
    · simp [dot] at h
    rw [if_neg dot] at h
    -- the empty rest: `**`s alone, or a last glob of `*`s that accepts the name itself
    rcases emptyMatch_eq_match wf.tail.flat h with all | ⟨k, g, rfl, hg⟩
    · simp [dot, all]
    have ne : g.tokens ≠ [] := wf.last (List.replicate k .star2) g (by
      rw [← List.cons_append, ← List.replicate_succ, List.replicate_succ', List.append_assoc,
        List.singleton_append])
    simp [acceptsPath_anySequences hg ne k hn dot]
  · simp only [Bool.or_eq_true, Bool.and_eq_true, Bool.not_eq_true', beq_eq_false_iff_ne] at h
    rcases h with h | ⟨dot, all⟩
    · rw [spec.1.mpr h, MatchResult.match_orElse]
    cases hm : pathMatch cs [x :: n] with
    | «match» => rfl
    | subPatternDoesntMatch => simp [dot, emptyMatch_star2s all]
    | entirePatternDoesntMatch => exact absurd hm (pathMatch_star2s_ne_entire all _)
  · rw [eq_of_suffix_singleton rne hr, acceptsPath_star2_last]
    rcases MatchResult.orElse_eq_entire.mp e with e | ⟨sub, e⟩
    · have all : cs.all (· == .star2) = false :=
        Bool.eq_false_iff.mpr fun all => pathMatch_star2s_ne_entire all _ e
      simp [spec.2 e _ (List.cons_ne_nil _ _) (List.suffix_refl _), all]
    · have none : acceptsPath cs [x :: n] = false := by simpa [sub] using spec.1.not
      rw [none]
      by_cases dot : x = '.'
      · simp [dot]
      have all : cs.all (· == .star2) = false := Bool.eq_false_iff.mpr fun all => by
        simp [dot, emptyMatch_star2s all] at e
      simp [all]

theorem pathSpec_star2_cons {x : Char} {n m : List Char} {names : List (List Char)}
    (ok : NamesOk ((x :: n) :: m :: names)) (inner : PathSpec (.star2 :: cs) (m :: names)) :
    PathSpec (.star2 :: cs) ((x :: n) :: m :: names) := by
  obtain ⟨-, hn⟩ := ok _ List.mem_cons_self
  have spec := ih _ ok (List.cons_ne_nil _ _)
  have later : m :: names <:+ (x :: n) :: m :: names := List.suffix_cons _ _
  rw [PathSpec, pathMatch_star2_cons cs hn, acceptsPath_star2_cons]
  refine ⟨⟨fun h => ?_, fun h => ?_⟩, fun e => ?_⟩
  · rcases MatchResult.orElse_eq_match.mp h with h | ⟨-, h⟩
    · simp [spec.1.mp h]
    by_cases dot : x = '.'
    · simp [dot] at h
    simp [dot, inner.1.mp (by simpa [dot] using h)]
  · simp only [Bool.or_eq_true, Bool.and_eq_true, Bool.not_eq_true', beq_eq_false_iff_ne] at h
    rcases h with h | ⟨dot, h⟩
    · rw [spec.1.mpr h, MatchResult.match_orElse]
    cases hm : pathMatch cs ((x :: n) :: m :: names) with
    | «match» => rfl
    | subPatternDoesntMatch => simp [dot, inner.1.mpr h]
    | entirePatternDoesntMatch =>
      -- the later rest the `**` accepts is a rest the components gave up on
      simp [star2_none hm (spec.2 hm) _ (List.cons_ne_nil m names) later] at h
  · rcases MatchResult.orElse_eq_entire.mp e with e | ⟨sub, e⟩
    · exact star2_none e (spec.2 e)
    by_cases dot : x = '.'
    · simp [dot] at e
    rw [if_neg dot] at e
    intro rest rne hr
    rcases List.suffix_cons_iff.mp hr with rfl | hr
    · have none : acceptsPath cs ((x :: n) :: m :: names) = false := by
        simpa [sub] using spec.1.not
      rw [acceptsPath_star2_cons, none, inner.2 e _ (List.cons_ne_nil m names) (List.suffix_refl _)]
      simp
    · exact inner.2 e rest rne hr

theorem pathSpec_star2 (wf : ComponentsWf (.star2 :: cs)) :
    ∀ names, NamesOk names → names ≠ [] → PathSpec (.star2 :: cs) names
  | [], _, ne => absurd rfl ne
  | [n], ok, _ => by
    obtain ⟨x, n, rfl, hn⟩ := ok.head
    exact pathSpec_star2_last ih wf hn
  | n :: m :: names, ok, _ => by
    obtain ⟨x, n, rfl, -⟩ := ok.head
    exact pathSpec_star2_cons ih ok
      (pathSpec_star2 wf (m :: names) (ok.suffix (List.suffix_cons _ _)) (List.cons_ne_nil m names))

end Star2

/-- `matches_from` on the text of a path answers, and gives up, component by component. -/
theorem pathSpec : ∀ {cs : List PatternComponent}, ComponentsWf cs →
    ∀ names, NamesOk names → names ≠ [] → PathSpec cs names
  | [], _, _, ok, ne => pathSpec_nil ok ne
  | .star2 :: _, wf, names, ok, ne => pathSpec_star2 (pathSpec wf.tail) wf names ok ne
  | [.glob _], wf, _, ok, ne => pathSpec_glob_last (wf.flat _ List.mem_cons_self) ok ne
  | .glob _ :: _ :: _, wf, _, ok, ne =>
    pathSpec_glob_cons (wf.flat _ List.mem_cons_self) (pathSpec wf.tail) ok ne

theorem pathMatch_eq_match_iff {cs : List PatternComponent} (wf : ComponentsWf cs)
    {names : List (List Char)} (ok : NamesOk names) (ne : names ≠ []) :
    pathMatch cs names = .match ↔ acceptsPath cs names = true :=
  (pathSpec wf names ok ne).1

end Spec

/-! ### What `compile` gives -/

/-- Whether every `**` of the tokens opens a component; `start` is whether the first token
does. -/
def opensFrom (start : Bool) : List PatternToken → Bool
  | [] => true
  | t :: tokens =>
    if t = .anyRecursiveSequence then start && opensFrom true tokens
    else opensFrom (t == .char '/') tokens

/-- A part of the split: a `**` alone, or a run of tokens without `**` and `/`. -/
def PartOk (p : List PatternToken) : Prop :=
  p = [.anyRecursiveSequence] ∨ (.anyRecursiveSequence ∉ p ∧ .char '/' ∉ p)

/-- The tokens of the parts in turn, with a `/` after each part that does not end in `**`. -/
def joinParts : List (List PatternToken) → List PatternToken
  | [] => []
  | [p] => p
  | p :: q :: ps =>
    p ++ (if p.getLast? = some .anyRecursiveSequence then [] else [.char '/']) ++ joinParts (q :: ps)

/-- The `CompiledPattern` that `compile` builds: flat components whose tokens in turn are
those of the whole pattern, and `suffix_all_star` and `fallback` computed from them. -/
structure CompiledPattern.Wf (cp : CompiledPattern) : Prop where
  components : ComponentsWf cp.components
  full : joinComponents cp.components = cp.full.tokens
  suffixAllStar : cp.suffixAllStar = suffixAllStarOf cp.components
  fallback : cp.fallback = decide (63 < cp.components.length)

section Compile

/-- The parser's guarantee read from the front: a `**` comes first, or after a `/` or a `**`. -/
theorem opensFrom_of_recursiveOpens :
    ∀ {tokens ctx : List PatternToken} {start : Bool}, RecursiveOpens (ctx ++ tokens) →
      (start = true ↔ ctx.getLast? = none ∨ ctx.getLast? = some (.char '/') ∨
        ctx.getLast? = some .anyRecursiveSequence) →
      opensFrom start tokens
  | [], _, _, _, _ => rfl
  | t :: tokens, ctx, start, h, hs => by
    have h' : RecursiveOpens ((ctx ++ [t]) ++ tokens) := by simpa using h
    simp only [opensFrom]
    split
    · subst t
      rw [hs.mpr (h ctx tokens rfl), Bool.true_and]
      exact opensFrom_of_recursiveOpens h' (by simp)
    · exact opensFrom_of_recursiveOpens h' (by simp [*])

theorem splitLoop_cons (t : PatternToken) (tokens : List PatternToken)
    (done : List (List PatternToken)) (current : List PatternToken) :
    splitLoop (t :: tokens) done current =
      if t = .char '/' then splitLoop tokens (done ++ [current]) []
      else if t = .anyRecursiveSequence then splitLoop tokens (done ++ [current ++ [t]]) []
      else splitLoop tokens done (current ++ [t]) := by
  cases t with
  | char c =>
    by_cases hc : c = '/'
    · subst hc
      rfl
    · rw [splitLoop.eq_4 _ _ _ _ (by simpa using hc) (by simp)]
      simp [hc]
  | anyRecursiveSequence => rfl
  | _ => rfl

theorem partOk_close {done : List (List PatternToken)} {current : List PatternToken}
    (hd : ∀ p ∈ done, PartOk p) (hr : .anyRecursiveSequence ∉ current) (hs : .char '/' ∉ current) :
    ∀ p ∈ done ++ [current], PartOk p := fun p hp =>
  (List.mem_append.mp hp).elim (hd p) fun h => by
    rw [List.mem_singleton.mp h]
    exact .inr ⟨hr, hs⟩

theorem splitLoop_parts : ∀ {tokens : List PatternToken} {done : List (List PatternToken)}
    {current : List PatternToken}, (∀ p ∈ done, PartOk p) → .anyRecursiveSequence ∉ current →
    .char '/' ∉ current → opensFrom current.isEmpty tokens → ∀ p ∈ splitLoop tokens done current, PartOk p
  | [], _, _, hd, hr, hs, _ => partOk_close hd hr hs
  | t :: tokens, done, current, hd, hr, hs, ho => by
    rw [splitLoop_cons]
    simp only [opensFrom] at ho
    by_cases slash : t = .char '/'
    · subst slash
      simp only [if_true]
      exact splitLoop_parts (partOk_close hd hr hs) (by simp) (by simp) (by simpa using ho)
    by_cases star : t = .anyRecursiveSequence
    · subst star
      -- the parser put the `**` at the start of a component
      obtain ⟨rfl, ho⟩ : current = [] ∧ opensFrom true tokens := by simpa using ho
      simp only [reduceCtorEq, if_false, if_true, List.nil_append]
      have closed : ∀ p ∈ done ++ [[.anyRecursiveSequence]], PartOk p := fun p hp =>
        (List.mem_append.mp hp).elim (hd p) fun h => .inl (List.mem_singleton.mp h)
      exact splitLoop_parts closed (by simp) (by simp) ho
    · simp only [slash, star, if_false] at ho ⊢
      have start : (current ++ [t]).isEmpty = (t == .char '/') := by
        rw [beq_false_of_ne slash]
        simp
      rw [← start] at ho
      exact splitLoop_parts hd (by simp [hr, Ne.symm star]) (by simp [hs, Ne.symm slash]) ho

theorem joinParts_cons {ps : List (List PatternToken)} (ne : ps ≠ []) (p : List PatternToken) :
    joinParts (p :: ps) =
      p ++ (if p.getLast? = some .anyRecursiveSequence then [] else [.char '/']) ++ joinParts ps := by
  obtain ⟨q, ps, rfl⟩ := List.exists_cons_of_ne_nil ne
  rfl

theorem joinParts_append_last (p x : List PatternToken) :
    ∀ ps : List (List PatternToken), joinParts (ps ++ [p ++ x]) = joinParts (ps ++ [p]) ++ x
  | [] => rfl
  | q :: ps => by
    rw [List.cons_append, List.cons_append, joinParts_cons (by simp), joinParts_cons (by simp),
      joinParts_append_last p x ps]
    simp

theorem joinParts_append_pair (p r : List PatternToken) :
    ∀ ps : List (List PatternToken), joinParts (ps ++ [p, r]) =
      joinParts (ps ++ [p]) ++ (if p.getLast? = some .anyRecursiveSequence then [] else [.char '/']) ++ r
  | [] => rfl
  | q :: ps => by
    rw [List.cons_append, List.cons_append, joinParts_cons (by simp), joinParts_cons (by simp),
      joinParts_append_pair p r ps]
    simp

/-- The split loses no token: joined again, the parts are the tokens read. -/
theorem splitLoop_join : ∀ {tokens : List PatternToken} {done : List (List PatternToken)}
    {current : List PatternToken}, current.getLast? ≠ some .anyRecursiveSequence →
    joinParts (splitLoop tokens done current) = joinParts (done ++ [current]) ++ tokens
  | [], _, _, _ => by simp [splitLoop]
  | t :: tokens, done, current, hc => by
    rw [splitLoop_cons]
    by_cases slash : t = .char '/'
    · subst slash
      rw [if_pos rfl, splitLoop_join (by simp), List.append_assoc, List.singleton_append,
        joinParts_append_pair, if_neg hc]
      simp
    by_cases star : t = .anyRecursiveSequence
    · subst star
      rw [if_neg slash, if_pos rfl, splitLoop_join (by simp), List.append_assoc,
        List.singleton_append, joinParts_append_pair, joinParts_append_last]
      simp
    · rw [if_neg slash, if_neg star, splitLoop_join (by simpa using star), joinParts_append_last]
      simp

theorem compileComponent_of_partOk {p : List PatternToken} (h : PartOk p) :
    compileComponent p = .star2 ∧ p = [.anyRecursiveSequence] ∨
      compileComponent p = .glob (.fromTokens p) ∧ .anyRecursiveSequence ∉ p ∧ .char '/' ∉ p := by
  rcases h with rfl | ⟨hr, hs⟩
  · exact .inl ⟨rfl, rfl⟩
  · have ne : p ≠ [.anyRecursiveSequence] := fun e => hr (by simp [e])
    exact .inr ⟨if_neg ne, hr, hs⟩

theorem joinComponents_map : ∀ {parts : List (List PatternToken)}, (∀ p ∈ parts, PartOk p) →
    joinComponents (parts.map compileComponent) = joinParts parts
  | [], _ => rfl
  | [p], h => by
    rcases compileComponent_of_partOk (h p List.mem_cons_self) with ⟨e, rfl⟩ | ⟨e, -⟩ <;>
      simp [e, joinParts, Pattern.fromTokens]
  | p :: q :: ps, h => by
    have rest : joinComponents ((q :: ps).map compileComponent) = joinParts (q :: ps) :=
      joinComponents_map fun r hr => h r (List.mem_cons_of_mem p hr)
    rw [List.map_cons, List.map_cons, joinParts] at *
    rcases compileComponent_of_partOk (h p List.mem_cons_self) with ⟨e, rfl⟩ | ⟨e, hr, -⟩
    · simp [e, rest]
    · have last : p.getLast? ≠ some .anyRecursiveSequence := fun l => hr (List.mem_of_getLast? l)
      simp [e, rest, last, Pattern.fromTokens]

/-- The parts `split_pattern_components` returns: each one well formed, the tokens read in
turn, and no empty part left after a last `**`. -/
theorem splitPatternComponents_spec {full : Glob.Pattern} (h : RecursiveOpens full.tokens) :
    (∀ p ∈ splitPatternComponents full, PartOk p) ∧
      joinParts (splitPatternComponents full) = full.tokens ∧
      ∀ pre, splitPatternComponents full ≠ pre ++ [[.anyRecursiveSequence], []] := by
  have opens : opensFrom true full.tokens := @opensFrom_of_recursiveOpens full.tokens [] true h (by simp)
  have parts := @splitLoop_parts full.tokens [] [] (by simp)
    (by simp) (by simp) (by simpa using opens)
  have join := @splitLoop_join full.tokens [] [] (by simp)
  simp only [List.nil_append, joinParts, List.nil_append] at join
  simp only [splitPatternComponents]
  split
  · rename_i rest e
    have e : splitLoop full.tokens [] [] = rest.reverse ++ [[.anyRecursiveSequence], []] := by
      rw [List.reverse_eq_cons_iff.mp e, List.reverse_cons]
      simp
    have drop : (splitLoop full.tokens [] []).dropLast = rest.reverse ++ [[.anyRecursiveSequence]] := by
      rw [e]
      simp
    refine ⟨fun p hp => parts p (List.dropLast_subset _ hp), ?_, fun pre e' => ?_⟩
    · rw [drop, ← join, e, joinParts_append_pair]
      simp
    · rw [drop] at e'
      simpa using congrArg List.getLast? e'
  · rename_i none
    exact ⟨parts, join, fun pre e => none pre.reverse (by simp [e])⟩

theorem compile_wf {pattern : String} {cp : CompiledPattern}
    (h : CompiledPattern.compile pattern = .ok cp) : cp.Wf := by
  cases hf : Glob.Pattern.new pattern with
  | error e =>
    rw [CompiledPattern.compile, hf] at h
    cases h
  | ok full =>
    simp only [CompiledPattern.compile, hf] at h
    cases h
    obtain ⟨parts, join, last⟩ := splitPatternComponents_spec (Glob.Pattern.new_recursiveOpens hf)
    refine ⟨⟨fun c hc => ?_, fun pre g e ge => ?_⟩, by rw [joinComponents_map parts, join], rfl, rfl⟩
    · obtain ⟨p, hp, rfl⟩ := List.mem_map.mp hc
      rcases compileComponent_of_partOk (parts p hp) with ⟨e, -⟩ | ⟨e, hr, hs⟩
      · rw [e]; trivial
      · rw [e]; exact ⟨hr, hs⟩
    · -- a `**` then an empty glob would be the pair of parts the split drops
      obtain ⟨l₁, l₂, split, -, e₂⟩ := List.map_eq_append_iff.mp e
      obtain ⟨p, l₂, rfl, ep, e₂⟩ := List.map_eq_cons_iff.mp e₂
      obtain ⟨q, l₂, rfl, eq, e₂⟩ := List.map_eq_cons_iff.mp e₂
      obtain rfl := List.map_eq_nil_iff.mp e₂
      have hp := parts p (by simp [split])
      have hq := parts q (by simp [split])
      rcases compileComponent_of_partOk hp with ⟨-, rfl⟩ | ⟨e, -⟩
      · rcases compileComponent_of_partOk hq with ⟨e, -⟩ | ⟨e, -⟩
        · rw [e] at eq; cases eq
        · rw [e] at eq
          cases eq
          exact last l₁ (by simpa [Pattern.fromTokens] using split.trans (by rw [show q = [] from ge]))
      · rw [e] at ep; cases ep

end Compile

end Josh
