import Josh.Glob.Pattern

/-! What `matches_from` searches for. `search` backtracks through every way to match the
tokens, with no cut at `EntirePatternDoesntMatch`. On tokens without `**` the cut loses
nothing: a single-character token that finds the text used up has no chance on any shorter
rest of it, so `matches_from` answers `Match` exactly when `search` does. -/

namespace Josh.Glob

section Search

variable (options : MatchOptions)

def searchLoop (recursive : Bool) (rest : Bool → List Char → Bool) : Bool → List Char → Bool
  | followsSeparator, [] => rest followsSeparator []
  | followsSeparator, c :: file =>
    if followsSeparator && options.requireLiteralLeadingDot && c == '.' then false
    else
      let followsSeparator := isSeparator c
      if recursive && !followsSeparator then searchLoop recursive rest followsSeparator file
      else if !recursive && options.requireLiteralSeparator && followsSeparator then false
      else rest followsSeparator file || searchLoop recursive rest followsSeparator file

def search : List PatternToken → Bool → List Char → Bool
  | [], _, file => file.isEmpty
  | .anySequence :: tokens, followsSeparator, file =>
    search tokens followsSeparator file || searchLoop options false (search tokens) followsSeparator file
  | .anyRecursiveSequence :: tokens, followsSeparator, file =>
    search tokens followsSeparator file || searchLoop options true (search tokens) followsSeparator file
  | _ :: _, _, [] => false
  | token :: tokens, followsSeparator, c :: file =>
    singleMatches options followsSeparator c token && search tokens (isSeparator c) file

/-- Whether the leading-dot rule bars the first character of a text. -/
def dotBlocked (followsSeparator : Bool) : List Char → Bool
  | [] => false
  | c :: _ => followsSeparator && options.requireLiteralLeadingDot && c == '.'

end Search

section Lemmas

variable {options : MatchOptions}

theorem singleMatches_start {fs : Bool} {c : Char}
    (h : (fs && options.requireLiteralLeadingDot && c == '.') = false) (t : PatternToken) :
    singleMatches options fs c t = singleMatches options false c t := by
  cases t <;> simp only [singleMatches, singleMatches.excluded, h, Bool.false_and, Bool.or_false]

theorem singleMatches_mono {c : Char} {t : PatternToken} (h : singleMatches options true c t) :
    singleMatches options false c t := by
  cases t <;> simp_all [singleMatches, singleMatches.excluded]

/-- `follows_separator` counts only through the leading-dot rule at the first character. -/
theorem search_start (tokens : List PatternToken) {fs : Bool} {file : List Char}
    (h : dotBlocked options fs file = false) :
    search options tokens fs file = search options tokens false file := by
  induction tokens generalizing fs file with
  | nil => rfl
  | cons t tokens ih =>
    have loop : ∀ r, searchLoop options r (search options tokens) fs file =
        searchLoop options r (search options tokens) false file := fun r => by
      cases file with
      | nil => exact ih (by simp [dotBlocked])
      | cons c file =>
        have first : (fs && options.requireLiteralLeadingDot && c == '.') = false := h
        simp only [searchLoop, first, Bool.false_and]
    cases file with
    | nil => cases t <;> simp only [search, ih h, loop]
    | cons c file =>
      have first : (fs && options.requireLiteralLeadingDot && c == '.') = false := h
      cases t <;> simp only [search, ih h, loop, singleMatches_start first]

theorem search_mono (tokens : List PatternToken) {file : List Char}
    (h : search options tokens true file) : search options tokens false file := by
  induction tokens generalizing file with
  | nil => exact h
  | cons t tokens ih =>
    have loop : ∀ r, searchLoop options r (search options tokens) true file →
        searchLoop options r (search options tokens) false file := fun r hl => by
      cases file with
      | nil => exact ih hl
      | cons c file =>
        simp only [searchLoop, Bool.true_and, Bool.false_and] at hl ⊢
        split at hl
        · simp at hl
        · exact hl
    cases file with
    | nil =>
      cases t
      case anySequence | anyRecursiveSequence =>
        simp only [search, Bool.or_eq_true] at h ⊢
        exact h.elim (fun h => .inl (ih h)) (fun h => .inr (loop _ h))
      all_goals simp [search] at h
    | cons c file =>
      cases t
      case anySequence | anyRecursiveSequence =>
        simp only [search, Bool.or_eq_true] at h ⊢
        exact h.elim (fun h => .inl (ih h)) (fun h => .inr (loop _ h))
      all_goals
        simp only [search, Bool.and_eq_true] at h ⊢
        exact ⟨singleMatches_mono h.1, h.2⟩

/-- A loop looks only at the rests of its text. -/
theorem searchLoop_false {recursive : Bool} {rest : Bool → List Char → Bool} {fs : Bool}
    {file : List Char} (none : ∀ u, u <:+ file → ∀ fs', rest fs' u = false) :
    searchLoop options recursive rest fs file = false := by
  induction file generalizing fs with
  | nil => exact none [] (List.suffix_refl _) fs
  | cons c file ih =>
    have inner : ∀ fs', searchLoop options recursive rest fs' file = false := fun fs' =>
      @ih fs' fun u hu => none u (hu.trans (List.suffix_cons c file))
    simp only [searchLoop]
    split
    · rfl
    split
    · exact inner _
    split
    · rfl
    · simp [none file (List.suffix_cons c file), inner]

/-- What a matcher `rest` owes its search `restS`: the same matches, and a text used up only
where nothing at or after it matches. -/
def Sound (rest : Bool → List Char → MatchResult) (restS : Bool → List Char → Bool) : Prop :=
  ∀ fs file, (rest fs file = .match ↔ restS fs file = true) ∧
    (rest fs file = .entirePatternDoesntMatch → ∀ w, w <:+ file → ∀ fs', restS fs' w = false)

theorem sound_nil : Sound (matchesFrom options []) (search options []) := by
  intro fs file
  cases file <;> simp [matchesFrom, search]

theorem Sound.single {tokens : List PatternToken}
    (ih : Sound (matchesFrom options tokens) (search options tokens)) {t : PatternToken}
    (hs : t ≠ .anySequence) (hr : t ≠ .anyRecursiveSequence) :
    Sound (matchesFrom options (t :: tokens)) (search options (t :: tokens)) := by
  have step : ∀ fs file, matchesFrom options (t :: tokens) fs file =
      match file with
      | [] => .entirePatternDoesntMatch
      | c :: file => if !singleMatches options fs c t then .subPatternDoesntMatch
          else matchesFrom options tokens (isSeparator c) file := by
    intro fs file
    cases t <;> first | exact absurd rfl hs | exact absurd rfl hr | rfl
  have stepS : ∀ fs c file, search options (t :: tokens) fs (c :: file) =
      (singleMatches options fs c t && search options tokens (isSeparator c) file) := by
    intro fs c file
    cases t <;> first | exact absurd rfl hs | exact absurd rfl hr | rfl
  have stepS₀ : ∀ fs, search options (t :: tokens) fs [] = false := by
    intro fs
    cases t <;> first | exact absurd rfl hs | exact absurd rfl hr | rfl
  intro fs file
  cases file with
  | nil =>
    refine ⟨by simp [step, stepS₀], fun _ w hw fs' => ?_⟩
    rw [List.suffix_nil.mp hw, stepS₀]
  | cons c file =>
    rw [step, stepS]
    by_cases hc : singleMatches options fs c t
    · simp only [hc, Bool.not_true, Bool.false_eq_true, if_false, Bool.true_and]
      refine ⟨(ih _ _).1, fun entire w hw fs' => ?_⟩
      have rests := (ih _ _).2 entire
      -- `w` is the whole text or a rest of `file`
      rcases List.suffix_cons_iff.mp hw with rfl | hw
      · simp [stepS, rests file (List.suffix_refl _)]
      · cases w with
        | nil => exact stepS₀ fs'
        | cons c' w => simp [stepS, rests w ((List.suffix_cons c' w).trans hw)]
    · simp [hc]

/-- The loop of a `*` token, against its search, while the match of nothing has failed. -/
theorem sequenceLoop_sound {rest : Bool → List Char → MatchResult} {restS : Bool → List Char → Bool}
    (sound : Sound rest restS) (start : ∀ fs file, dotBlocked options fs file = false →
      restS fs file = restS false file)
    (mono : ∀ file, restS true file → restS false file) :
    ∀ fs file, rest fs file = .subPatternDoesntMatch →
      (sequenceLoop options false rest fs file = .match ↔
        searchLoop options false restS fs file = true) ∧
      (sequenceLoop options false rest fs file = .entirePatternDoesntMatch →
        ∀ w, w <:+ file → ∀ fs', restS fs' w = false) := by
  intro fs file
  induction file generalizing fs with
  | nil =>
    intro sub
    have none : restS fs [] = false := by simpa [sub] using (sound fs []).1
    simp [sequenceLoop, searchLoop, sub, none]
  | cons c file ih =>
    intro sub
    -- the match of nothing failed here, so no search from here succeeds unless the dot rule
    -- changes with `follows_separator`
    have here : ∀ fs', dotBlocked options fs (c :: file) = false → restS fs' (c :: file) = false := by
      intro fs' free
      have none : restS fs (c :: file) = false := by simpa [sub] using (sound fs (c :: file)).1
      rw [start fs _ free] at none
      cases fs' with
      | false => exact none
      | true => exact Bool.eq_false_iff.mpr fun h => by simp [mono _ h] at none
    simp only [sequenceLoop, searchLoop]
    split
    · simp
    rename_i free
    have free' : dotBlocked options fs (c :: file) = false := by simpa [dotBlocked] using free
    simp only [Bool.false_and, Bool.false_eq_true, if_false]
    split
    · simp
    cases hr : rest (isSeparator c) file with
    | «match» =>
      simp [(sound _ _).1.mp hr]
    | entirePatternDoesntMatch =>
      have rests := (sound _ _).2 hr
      refine ⟨by simp [rests file (List.suffix_refl _), searchLoop_false rests], fun _ w hw fs' => ?_⟩
      rcases List.suffix_cons_iff.mp hw with rfl | hw
      · exact here fs' free'
      · exact rests w hw fs'
    | subPatternDoesntMatch =>
      have none : restS (isSeparator c) file = false := by
        simpa [hr] using (sound (isSeparator c) file).1
      obtain ⟨iff, entire⟩ := ih (isSeparator c) hr
      refine ⟨by simp [none, iff], fun e w hw fs' => ?_⟩
      rcases List.suffix_cons_iff.mp hw with rfl | hw
      · exact here fs' free'
      · exact entire e w hw fs'

theorem Sound.anySequence {tokens : List PatternToken}
    (ih : Sound (matchesFrom options tokens) (search options tokens)) :
    Sound (matchesFrom options (.anySequence :: tokens)) (search options (.anySequence :: tokens)) := by
  have loop := sequenceLoop_sound ih (fun _ _ h => search_start tokens h)
    (fun _ h => search_mono tokens h)
  intro fs file
  simp only [matchesFrom, search]
  cases hr : matchesFrom options tokens fs file with
  | «match» => simp [(ih _ _).1.mp hr]
  | entirePatternDoesntMatch =>
    have rests := (ih _ _).2 hr
    refine ⟨by simp [rests file (List.suffix_refl _), searchLoop_false rests], fun _ w hw fs' => ?_⟩
    simp [rests w hw, searchLoop_false fun u hu => rests u (hu.trans hw)]
  | subPatternDoesntMatch =>
    have none : search options tokens fs file = false := by simpa [hr] using (ih fs file).1
    obtain ⟨iff, entire⟩ := loop fs file hr
    refine ⟨by simp [none, iff], fun e w hw fs' => ?_⟩
    have rests := entire e
    simp [rests w hw, searchLoop_false fun u hu => rests u (hu.trans hw)]

/-- Without `**` tokens, `matches_from` matches exactly where its search does, and the text
runs out only where no rest of it matches. -/
theorem sound_of_flat (tokens : List PatternToken) (flat : .anyRecursiveSequence ∉ tokens) :
    Sound (matchesFrom options tokens) (search options tokens) := by
  induction tokens with
  | nil => exact sound_nil
  | cons t tokens ih =>
    have ih := ih fun h => flat (List.mem_cons_of_mem t h)
    by_cases hs : t = .anySequence
    · subst hs
      exact ih.anySequence
    · exact ih.single hs fun e => flat (e ▸ List.mem_cons_self)

theorem matchesFrom_eq_match_iff {tokens : List PatternToken} (flat : .anyRecursiveSequence ∉ tokens)
    (fs : Bool) (file : List Char) :
    matchesFrom options tokens fs file = .match ↔ search options tokens fs file = true :=
  (sound_of_flat tokens flat fs file).1

end Lemmas

end Josh.Glob

/-! ### What a match needs of the text -/

namespace Josh.Glob

section Text

variable {options : MatchOptions}

theorem sequenceLoop_match {recursive : Bool} {rest : Bool → List Char → MatchResult} :
    ∀ {fs : Bool} {file : List Char}, sequenceLoop options recursive rest fs file = .match →
      ∃ u, u <:+ file ∧ ∃ fs', rest fs' u = .match
  | fs, [], h => ⟨[], List.suffix_refl _, fs, h⟩
  | fs, c :: file, h => by
    simp only [sequenceLoop] at h
    split at h
    · cases h
    split at h
    · obtain ⟨u, hu, found⟩ := sequenceLoop_match h
      exact ⟨u, hu.trans (List.suffix_cons c file), found⟩
    split at h
    · cases h
    rcases MatchResult.orElse_eq_match.mp h with found | ⟨-, h⟩
    · exact ⟨file, List.suffix_cons c file, _, found⟩
    · obtain ⟨u, hu, found⟩ := sequenceLoop_match h
      exact ⟨u, hu.trans (List.suffix_cons c file), found⟩

theorem sequenceLoop_entire {recursive : Bool} {rest : Bool → List Char → MatchResult} :
    ∀ {fs : Bool} {file : List Char}, sequenceLoop options recursive rest fs file = .entirePatternDoesntMatch →
      ∃ u fs', rest fs' u = .entirePatternDoesntMatch
  | fs, [], h => ⟨[], fs, h⟩
  | fs, c :: file, h => by
    simp only [sequenceLoop] at h
    split at h
    · cases h
    split at h
    · exact sequenceLoop_entire h
    split at h
    · cases h
    rcases MatchResult.orElse_eq_entire.mp h with found | ⟨-, h⟩
    · exact ⟨file, _, found⟩
    · exact sequenceLoop_entire h

/-- Case-sensitively, every literal character of the tokens is read off the text. -/
theorem matchesFrom_match_char (sensitive : options.caseSensitive = true) {c : Char} :
    ∀ {tokens : List PatternToken} {fs : Bool} {file : List Char},
      matchesFrom options tokens fs file = .match → .char c ∈ tokens → c ∈ file
  | [], _, _, _, mem => absurd mem List.not_mem_nil
  | t :: tokens, fs, file, h, mem => by
    have later : ∀ {fs' u}, u <:+ file → matchesFrom options tokens fs' u = .match →
        .char c ∈ tokens → c ∈ file := fun hu found mem =>
      hu.subset (matchesFrom_match_char sensitive found mem)
    cases t with
    | anySequence | anyRecursiveSequence =>
      have mem : .char c ∈ tokens := by simpa using mem
      rcases MatchResult.orElse_eq_match.mp h with found | ⟨-, h⟩
      · exact later (List.suffix_refl _) found mem
      · obtain ⟨u, hu, fs', found⟩ := sequenceLoop_match h
        exact later hu found mem
    | _ =>
      cases file with
      | nil => cases h
      | cons x file =>
        simp only [matchesFrom] at h
        split at h
        · cases h
        rename_i hm
        rcases List.mem_cons.mp mem with e | mem
        · -- the literal token read `x`
          cases e <;> simp_all [singleMatches, charsEq]
        · exact List.mem_cons_of_mem x (matchesFrom_match_char sensitive h mem)

/-- The empty text is matched exactly by `*`s and `**`s. -/
theorem matchesFrom_nil_match_iff :
    ∀ {tokens : List PatternToken} {fs : Bool}, matchesFrom options tokens fs [] = .match ↔
      ∀ t ∈ tokens, t = .anySequence ∨ t = .anyRecursiveSequence
  | [], _ => by simp [matchesFrom]
  | t :: tokens, fs => by
    cases t with
    | anySequence | anyRecursiveSequence =>
      simp only [matchesFrom, sequenceLoop, MatchResult.orElse_self, List.mem_cons, forall_eq_or_imp]
      simpa using matchesFrom_nil_match_iff
    | _ => simp [matchesFrom]

/-- The text runs out only at a token that needs a character. -/
theorem matchesFrom_entire :
    ∀ {tokens : List PatternToken} {fs : Bool} {file : List Char},
      matchesFrom options tokens fs file = .entirePatternDoesntMatch →
        ∃ t ∈ tokens, t ≠ .anySequence ∧ t ≠ .anyRecursiveSequence
  | [], fs, file, h => by cases file <;> simp [matchesFrom] at h
  | t :: tokens, fs, file, h => by
    cases t with
    | anySequence | anyRecursiveSequence =>
      suffices ∃ t ∈ tokens, t ≠ .anySequence ∧ t ≠ .anyRecursiveSequence by
        obtain ⟨t, mem, ht⟩ := this
        exact ⟨t, List.mem_cons_of_mem _ mem, ht⟩
      rcases MatchResult.orElse_eq_entire.mp h with found | ⟨-, h⟩
      · exact matchesFrom_entire found
      · obtain ⟨u, fs', found⟩ := sequenceLoop_entire h
        exact matchesFrom_entire found
    | _ => exact ⟨_, List.mem_cons_self, by simp, by simp⟩

/-- A text the tokens cannot run out on: `*`s and `**`s never need a character. -/
theorem matchesFrom_ne_entire {tokens : List PatternToken}
    (h : ∀ t ∈ tokens, t = .anySequence ∨ t = .anyRecursiveSequence) (fs : Bool) (file : List Char) :
    matchesFrom options tokens fs file ≠ .entirePatternDoesntMatch := fun e => by
  obtain ⟨t, mem, hs, hr⟩ := matchesFrom_entire e
  exact (h t mem).elim hs hr

theorem isSeparator_of_ne {c : Char} (h : c ≠ '/') : isSeparator c = false := by
  simpa [isSeparator] using h

/-- The loop of a `*` reads on to the end of a text without a separator. -/
theorem searchLoop_to_end {rest : Bool → List Char → Bool} (h : rest false [] = true) :
    ∀ {w : List Char}, '/' ∉ w → searchLoop options false rest false w = true
  | [], _ => h
  | c :: w, hw => by
    have hc := isSeparator_of_ne fun e : c = '/' => hw (e ▸ List.mem_cons_self)
    simp [searchLoop, hc, searchLoop_to_end h fun m => hw (List.mem_cons_of_mem c m)]

theorem search_nil_of_sequences :
    ∀ {tokens : List PatternToken} {fs : Bool},
      (∀ t ∈ tokens, t = .anySequence ∨ t = .anyRecursiveSequence) → search options tokens fs []
  | [], _, _ => rfl
  | t :: tokens, fs, h => by
    have rest : search options tokens fs [] :=
      search_nil_of_sequences fun u hu => h u (List.mem_cons_of_mem t hu)
    rcases h t List.mem_cons_self with rfl | rfl <;> simp [search, rest]

/-- `*`s alone match every text without a separator that the dot rule lets them start. -/
theorem search_anySequences {tokens : List PatternToken} (h : ∀ t ∈ tokens, t = .anySequence)
    (ne : tokens ≠ []) {fs : Bool} {w : List Char} (hw : '/' ∉ w)
    (free : dotBlocked options fs w = false) : search options tokens fs w = true := by
  obtain ⟨t, tokens, rfl⟩ := List.exists_cons_of_ne_nil ne
  obtain rfl := h t List.mem_cons_self
  have empty : ∀ fs', search options tokens fs' [] = true := fun _ =>
    search_nil_of_sequences fun u hu => .inl (h u (List.mem_cons_of_mem _ hu))
  cases w with
  | nil => simp [search, searchLoop, empty]
  | cons c w =>
    have first : (fs && options.requireLiteralLeadingDot && c == '.') = false := free
    have hc := isSeparator_of_ne fun e : c = '/' => hw (e ▸ List.mem_cons_self)
    have loop : searchLoop options false (search options tokens) false w = true :=
      searchLoop_to_end (empty false) fun m => hw (List.mem_cons_of_mem c m)
    simp [search, searchLoop, first, hc, loop]

end Text

end Josh.Glob
