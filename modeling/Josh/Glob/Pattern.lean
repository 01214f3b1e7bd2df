import Mathlib.Data.List.Infix

/-! The `glob` crate vendored under `vendor/rust-lang/glob`: `Pattern::new` compiles a pattern
into tokens, and `matches_from` matches the tokens against a text by backtracking, on Unix,
where `/` is the only separator. A `*` or `**` first tries to match nothing and then grows
one character at a time; a single-character token that finds the text used up answers
`EntirePatternDoesntMatch`, which ends every enclosing loop at once. -/

namespace Josh.Glob

inductive CharSpecifier where
  | singleChar (c : Char)
  | charRange (start stop : Char)
  deriving DecidableEq, Repr

inductive PatternToken where
  | char (c : Char)
  | anyChar
  | anySequence
  | anyRecursiveSequence
  | anyWithin (specifiers : List CharSpecifier)
  | anyExcept (specifiers : List CharSpecifier)
  deriving DecidableEq, Repr

inductive MatchResult where
  | «match»
  | subPatternDoesntMatch
  | entirePatternDoesntMatch
  deriving DecidableEq, Repr

structure MatchOptions where
  caseSensitive : Bool
  requireLiteralSeparator : Bool
  requireLiteralLeadingDot : Bool
  deriving DecidableEq, Repr

structure PatternError where
  pos : Nat
  msg : String
  deriving DecidableEq, Repr

/-- `Pattern`: the text it was compiled from and its tokens. -/
structure Pattern where
  original : String
  tokens : List PatternToken
  deriving DecidableEq, Repr

/-- `path::is_separator` on Unix. -/
def isSeparator (c : Char) : Bool := c == '/'

def isAscii (c : Char) : Bool := c.toNat < 128

def charsEq (a b : Char) (caseSensitive : Bool) : Bool :=
  if !caseSensitive && isAscii a && isAscii b then a.toLower == b.toLower else a == b

def inCharSpecifiers (specifiers : List CharSpecifier) (c : Char) (options : MatchOptions) : Bool :=
  specifiers.any fun
    | .singleChar sc => charsEq c sc options.caseSensitive
    | .charRange start stop =>
      -- a case-insensitive range folds case only when both ends are letters
      (!options.caseSensitive && isAscii c && isAscii start && isAscii stop &&
        (let start := start.toLower
         let stop := stop.toLower
         start != start.toUpper && stop != stop.toUpper &&
           (let c := c.toLower
            start ≤ c && c ≤ stop))) ||
      (start ≤ c && c ≤ stop)

def parseCharSpecifiers : List Char → List CharSpecifier
  | start :: '-' :: stop :: rest => .charRange start stop :: parseCharSpecifiers rest
  | c :: rest => .singleChar c :: parseCharSpecifiers rest
  | [] => []

def errorWildcards : String := "wildcards are either regular `*` or recursive `**`"

def errorRecursiveWildcards : String := "recursive wildcards must form a single path component"

def errorInvalidRange : String := "invalid range pattern"

/-- The text up to the first `]` and the text after it. -/
def closeBracket : List Char → Option (List Char × List Char)
  | [] => none
  | ']' :: after => some ([], after)
  | c :: rest => (closeBracket rest).map fun (body, after) => (c :: body, after)

/-- The loop of `Pattern::new` at position `i`, `prev` the character before it. Each round
consumes a character, so the fuel, the pattern's length, never runs out. -/
def newLoop : Nat → Nat → Option Char → List Char → List PatternToken →
    Except PatternError (List PatternToken)
  | _, _, _, [], tokens => .ok tokens
  | 0, i, _, _ :: _, _ => .error ⟨i, "pattern: out of fuel"⟩
  | fuel + 1, i, prev, c :: chars, tokens =>
    match c with
    | '?' => newLoop fuel (i + 1) (some '?') chars (tokens ++ [.anyChar])
    | '*' =>
      let count := 1 + (chars.takeWhile (· == '*')).length
      let after := chars.dropWhile (· == '*')
      if 2 < count then .error ⟨i + 2, errorWildcards⟩
      else if count = 2 then
        -- `**` is a whole component: at the start or after a separator, and before one or
        -- at the end; the separator after it is consumed with it
        if prev.all isSeparator then
          let tokens := if 1 < tokens.length ∧ tokens.getLast? = some .anyRecursiveSequence then
            tokens else tokens ++ [.anyRecursiveSequence]
          match after with
          | [] => .ok tokens
          | '/' :: after => newLoop fuel (i + 3) (some '/') after tokens
          | _ :: _ => .error ⟨i + 2, errorRecursiveWildcards⟩
        else .error ⟨i - 1, errorRecursiveWildcards⟩
      else newLoop fuel (i + 1) (some '*') chars (tokens ++ [.anySequence])
    | '[' =>
      match chars with
      | '!' :: x :: y :: rest =>
        match closeBracket (y :: rest) with
        | some (body, after) => newLoop fuel (i + 4 + body.length) (some ']') after
            (tokens ++ [.anyExcept (parseCharSpecifiers (x :: body))])
        | none => .error ⟨i, errorInvalidRange⟩
      | x :: y :: rest =>
        if x ≠ '!' then
          match closeBracket (y :: rest) with
          | some (body, after) => newLoop fuel (i + 3 + body.length) (some ']') after
              (tokens ++ [.anyWithin (parseCharSpecifiers (x :: body))])
          | none => .error ⟨i, errorInvalidRange⟩
        else .error ⟨i, errorInvalidRange⟩
      | _ => .error ⟨i, errorInvalidRange⟩
    | c => newLoop fuel (i + 1) (some c) chars (tokens ++ [.char c])

def Pattern.new (pattern : String) : Except PatternError Pattern := do
  .ok ⟨pattern, ← newLoop pattern.length 0 none pattern.toList []⟩

/-- `Pattern::from_tokens`: a pattern with no text of its own. -/
def Pattern.fromTokens (tokens : List PatternToken) : Pattern := ⟨"", tokens⟩

/-- A sub-match's answer, or on `SubPatternDoesntMatch` the answer of trying on: the loops of
`matches_from` keep trying only after that answer. -/
def MatchResult.orElse : MatchResult → MatchResult → MatchResult
  | .subPatternDoesntMatch, next => next
  | m, _ => m

@[simp] theorem MatchResult.sub_orElse (next : MatchResult) :
    MatchResult.subPatternDoesntMatch.orElse next = next := rfl

@[simp] theorem MatchResult.match_orElse (next : MatchResult) :
    MatchResult.match.orElse next = .match := rfl

@[simp] theorem MatchResult.entire_orElse (next : MatchResult) :
    MatchResult.entirePatternDoesntMatch.orElse next = .entirePatternDoesntMatch := rfl

theorem MatchResult.orElse_eq_match {m next : MatchResult} :
    m.orElse next = .match ↔ m = .match ∨ (m = .subPatternDoesntMatch ∧ next = .match) := by
  cases m <;> simp

theorem MatchResult.orElse_eq_entire {m next : MatchResult} :
    m.orElse next = .entirePatternDoesntMatch ↔
      m = .entirePatternDoesntMatch ∨ (m = .subPatternDoesntMatch ∧ next = .entirePatternDoesntMatch) := by
  cases m <;> simp

@[simp] theorem MatchResult.orElse_self (m : MatchResult) : m.orElse m = m := by
  cases m <;> rfl

/-- Whether `c` matches a single-character token, after `follows_separator`. -/
def singleMatches (options : MatchOptions) (followsSeparator : Bool) (c : Char) :
    PatternToken → Bool
  | .char c2 => charsEq c c2 options.caseSensitive
  | .anyChar => !excluded
  | .anyWithin specifiers => !excluded && inCharSpecifiers specifiers c options
  | .anyExcept specifiers => !excluded && !inCharSpecifiers specifiers c options
  | .anySequence | .anyRecursiveSequence => false
where
  excluded : Bool := (options.requireLiteralSeparator && isSeparator c) ||
    (followsSeparator && options.requireLiteralLeadingDot && c == '.')

/-- The `while let Some(c) = file.next()` loop of a `*` (`recursive` false) or `**` token, with
`rest` matching the tokens after it. When the text runs out the `for` loop goes on with those
tokens. -/
def sequenceLoop (options : MatchOptions) (recursive : Bool)
    (rest : Bool → List Char → MatchResult) : Bool → List Char → MatchResult
  | followsSeparator, [] => rest followsSeparator []
  | followsSeparator, c :: file =>
    if followsSeparator && options.requireLiteralLeadingDot && c == '.' then .subPatternDoesntMatch
    else
      let followsSeparator := isSeparator c
      if recursive && !followsSeparator then sequenceLoop options recursive rest followsSeparator file
      else if !recursive && options.requireLiteralSeparator && followsSeparator then
        .subPatternDoesntMatch
      else (rest followsSeparator file).orElse
        (sequenceLoop options recursive rest followsSeparator file)

def matchesFrom (options : MatchOptions) : List PatternToken → Bool → List Char → MatchResult
  | [], _, file => if file.isEmpty then .match else .subPatternDoesntMatch
  | .anySequence :: tokens, followsSeparator, file =>
    (matchesFrom options tokens followsSeparator file).orElse
      (sequenceLoop options false (matchesFrom options tokens) followsSeparator file)
  | .anyRecursiveSequence :: tokens, followsSeparator, file =>
    (matchesFrom options tokens followsSeparator file).orElse
      (sequenceLoop options true (matchesFrom options tokens) followsSeparator file)
  | token :: tokens, followsSeparator, file =>
    match file with
    | [] => .entirePatternDoesntMatch
    | c :: file =>
      if !singleMatches options followsSeparator c token then .subPatternDoesntMatch
      else matchesFrom options tokens (isSeparator c) file

def Pattern.matchesWith (pattern : Pattern) (str : String) (options : MatchOptions) : Bool :=
  matchesFrom options pattern.tokens true str.toList == .match

/-! ### What `Pattern::new` emits -/

/-- Every `**` token opens a path component: it comes first, or after a `/` or another `**`. -/
def RecursiveOpens (tokens : List PatternToken) : Prop :=
  ∀ pre post, tokens = pre ++ .anyRecursiveSequence :: post →
    pre.getLast? = none ∨ pre.getLast? = some (.char '/') ∨
      pre.getLast? = some .anyRecursiveSequence

theorem RecursiveOpens.nil : RecursiveOpens [] := by
  intro pre post h
  simp at h

theorem RecursiveOpens.append {tokens : List PatternToken} {t : PatternToken}
    (h : RecursiveOpens tokens)
    (ht : t = .anyRecursiveSequence → tokens.getLast? = none ∨
      tokens.getLast? = some (.char '/') ∨ tokens.getLast? = some .anyRecursiveSequence) :
    RecursiveOpens (tokens ++ [t]) := by
  intro pre post split
  rcases List.eq_nil_or_concat post with rfl | ⟨post, x, rfl⟩
  · obtain ⟨rfl, e⟩ := List.append_inj' split rfl
    exact ht (List.singleton_inj.mp e)
  · have shorter : tokens = pre ++ .anyRecursiveSequence :: post := by
      rw [List.concat_eq_append, ← List.cons_append, ← List.append_assoc] at split
      exact (List.append_inj' split rfl).1
    exact h pre post shorter

/-- What the loop of `Pattern::new` knows of the tokens so far: the character before the
position is `/` only after a `/` token or a `**` that consumed it. -/
def LoopInv (prev : Option Char) (tokens : List PatternToken) : Prop :=
  RecursiveOpens tokens ∧ (prev = none → tokens = []) ∧
    (prev = some '/' → tokens.getLast? = some (.char '/') ∨
      tokens.getLast? = some .anyRecursiveSequence)

theorem LoopInv.push {prev : Option Char} {tokens : List PatternToken} (h : LoopInv prev tokens)
    {t : PatternToken} (ht : t ≠ .anyRecursiveSequence) {c : Char} (hc : c = '/' → t = .char '/') :
    LoopInv (some c) (tokens ++ [t]) := by
  refine ⟨h.1.append fun e => absurd e ht, by simp, fun e => ?_⟩
  simp [hc (Option.some.inj e)]

theorem LoopInv.recursive {prev : Option Char} {tokens : List PatternToken} (h : LoopInv prev tokens)
    (sep : prev.all isSeparator) :
    LoopInv (some '/') (if 1 < tokens.length ∧ tokens.getLast? = some .anyRecursiveSequence then
      tokens else tokens ++ [.anyRecursiveSequence]) := by
  split
  · exact ⟨h.1, by simp, fun _ => .inr ‹_ ∧ _›.2⟩
  · refine ⟨h.1.append fun _ => ?_, by simp, by simp⟩
    -- the character before `**` is a separator or there is none
    cases prev with
    | none => simp [h.2.1 rfl]
    | some p =>
      have : p = '/' := by simpa [isSeparator] using sep
      subst this
      rcases h.2.2 rfl with e | e <;> simp [e]

theorem newLoop_recursiveOpens (fuel i : Nat) (prev : Option Char) (chars : List Char)
    (tokens out : List PatternToken) (inv : LoopInv prev tokens)
    (h : newLoop fuel i prev chars tokens = .ok out) : RecursiveOpens out := by
  induction fuel generalizing i prev chars tokens with
  | zero =>
    cases chars with
    | nil => simp only [newLoop, Except.ok.injEq] at h; exact h ▸ inv.1
    | cons c chars => simp [newLoop] at h
  | succ fuel ih =>
    cases chars with
    | nil => simp only [newLoop, Except.ok.injEq] at h; exact h ▸ inv.1
    | cons c chars =>
      simp only [newLoop] at h
      split at h
      · exact ih _ _ _ _ (inv.push (by simp) (by simp)) h
      · -- a run of stars
        split at h
        · simp at h
        split at h
        · split at h
          · rename_i sep
            split at h
            · simp only [Except.ok.injEq] at h
              exact h ▸ (inv.recursive sep).1
            · exact ih _ _ _ _ (inv.recursive sep) h
            · simp at h
          · simp at h
        · exact ih _ _ _ _ (inv.push (by simp) (by simp)) h
      · -- a bracket class
        split at h
        · split at h
          · exact ih _ _ _ _ (inv.push (by simp) (by simp)) h
          · simp at h
        · split at h
          · split at h
            · exact ih _ _ _ _ (inv.push (by simp) (by simp)) h
            · simp at h
          · simp at h
        · simp at h
      · exact ih _ _ _ _ (inv.push (by simp) fun e => by rw [e]) h

theorem Pattern.new_recursiveOpens {pattern : String} {p : Pattern} (h : Pattern.new pattern = .ok p) :
    RecursiveOpens p.tokens := by
  simp only [Pattern.new, bind, Except.bind] at h
  split at h
  · simp at h
  · rename_i tokens loop
    simp only [Except.ok.injEq] at h
    subst h
    exact newLoop_recursiveOpens _ _ _ _ _ _ ⟨.nil, fun _ => rfl, by simp⟩ loop

end Josh.Glob
