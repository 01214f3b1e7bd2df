import Mathlib.Data.List.Basic

/-! JSON string literals: the escape a JSON writer applies to a string, and the reading of a
string literal back, escapes and surrogate pairs included. Reading back what was written gives
the string again. -/

namespace Json

/-- The value of a hexadecimal digit, in either case. -/
def hexValue (c : Char) : Option Nat :=
  if '0' ≤ c ∧ c ≤ '9' then some (c.toNat - '0'.toNat)
  else if 'a' ≤ c ∧ c ≤ 'f' then some (c.toNat - 'a'.toNat + 10)
  else if 'A' ≤ c ∧ c ≤ 'F' then some (c.toNat - 'A'.toNat + 10)
  else none

/-- The value of four hexadecimal digits. -/
def hexValue4 (a b c d : Char) : Option Nat := do
  let a ← hexValue a
  let b ← hexValue b
  let c ← hexValue c
  let d ← hexValue d
  some (((a * 16 + b) * 16 + c) * 16 + d)

/-- The escape of one character: the quote, the backslash and the control characters. -/
def escapeChar (c : Char) : List Char :=
  if c = '"' then ['\\', '"']
  else if c = '\\' then ['\\', '\\']
  else if c = '\x08' then ['\\', 'b']
  else if c = '\x0c' then ['\\', 'f']
  else if c = '\n' then ['\\', 'n']
  else if c = '\r' then ['\\', 'r']
  else if c = '\t' then ['\\', 't']
  else if c.toNat < 0x20 then
    ['\\', 'u', '0', '0', Nat.digitChar (c.toNat / 16), Nat.digitChar (c.toNat % 16)]
  else [c]

/-- A string as a JSON string literal. -/
def quote (s : String) : String :=
  String.ofList ('"' :: s.toList.flatMap escapeChar ++ ['"'])

/-- The character of a single escape, after the backslash. -/
def simpleEscape : Char → Option Char
  | '"' => some '"'
  | '\\' => some '\\'
  | '/' => some '/'
  | 'b' => some '\x08'
  | 'f' => some '\x0c'
  | 'n' => some '\n'
  | 'r' => some '\r'
  | 't' => some '\t'
  | _ => none

/-- The characters of a string literal after its opening quote, up to its closing quote, and
what follows it. A raw control character, an unknown escape and a lone surrogate are errors. -/
def readBody : List Char → Option (List Char × List Char)
  | [] => none
  | '"' :: rest => some ([], rest)
  | '\\' :: 'u' :: a :: b :: c :: d :: rest =>
    match hexValue4 a b c d with
    | none => none
    | some hi =>
      if 0xD800 ≤ hi ∧ hi < 0xDC00 then
        -- a leading surrogate takes the trailing one of the next escape
        match rest with
        | '\\' :: 'u' :: e :: f :: g :: h :: rest' =>
          match hexValue4 e f g h with
          | some lo =>
            if 0xDC00 ≤ lo ∧ lo < 0xE000 then do
              let (s, after) ← readBody rest'
              some (Char.ofNat (0x10000 + (hi - 0xD800) * 0x400 + (lo - 0xDC00)) :: s, after)
            else none
          | none => none
        | _ => none
      else if 0xDC00 ≤ hi ∧ hi < 0xE000 then none
      else do
        let (s, after) ← readBody rest
        some (Char.ofNat hi :: s, after)
  | '\\' :: e :: rest => do
    let c ← simpleEscape e
    let (s, after) ← readBody rest
    some (c :: s, after)
  | c :: rest =>
    if c.toNat < 0x20 then none
    else do
      let (s, after) ← readBody rest
      some (c :: s, after)

theorem hexValue_digitChar {k : Nat} (hk : k < 16) : hexValue (Nat.digitChar k) = some k := by
  have digits : ∀ d : Fin 16, hexValue (Nat.digitChar d) = some d := by decide
  exact digits ⟨k, hk⟩

theorem readBody_unicode {n : Nat} (hn : n < 0xD800) {a b c d : Char}
    (digits : hexValue4 a b c d = some n) (rest : List Char) :
    readBody ('\\' :: 'u' :: a :: b :: c :: d :: rest) =
      (readBody rest).map fun r => (Char.ofNat n :: r.1, r.2) := by
  rw [readBody, digits]
  simp only
  rw [if_neg (by omega), if_neg (by omega)]
  cases readBody rest <;> rfl

/-- Reading back an escaped string up to the closing quote gives the string and what follows. -/
theorem readBody_escape (s rest : List Char) :
    readBody (s.flatMap escapeChar ++ '"' :: rest) = some (s, rest) := by
  induction s with
  | nil => rfl
  | cons c s ih =>
    rw [List.flatMap_cons, List.append_assoc]
    -- one case for each way `escapeChar` writes a character
    by_cases quot : c = '"'
    · subst quot; simp [escapeChar, readBody, simpleEscape, ih]
    by_cases bslash : c = '\\'
    · subst bslash; simp [escapeChar, readBody, simpleEscape, ih]
    by_cases bs : c = '\x08'
    · subst bs; simp [escapeChar, readBody, simpleEscape, ih]
    by_cases ff : c = '\x0c'
    · subst ff; simp [escapeChar, readBody, simpleEscape, ih]
    by_cases nl : c = '\n'
    · subst nl; simp [escapeChar, readBody, simpleEscape, ih]
    by_cases cr : c = '\r'
    · subst cr; simp [escapeChar, readBody, simpleEscape, ih]
    by_cases tab : c = '\t'
    · subst tab; simp [escapeChar, readBody, simpleEscape, ih]
    by_cases control : c.toNat < 0x20
    · -- a `\u00XX` escape of the character's code
      have digits : hexValue4 '0' '0' (Nat.digitChar (c.toNat / 16)) (Nat.digitChar (c.toNat % 16)) =
          some c.toNat := by
        simp [hexValue4, hexValue_digitChar (show c.toNat / 16 < 16 by omega),
          hexValue_digitChar (Nat.mod_lt _ (show 16 > 0 by omega)), show hexValue '0' = some 0 from rfl]
        omega
      simp only [escapeChar, quot, bslash, bs, ff, nl, cr, tab, control, if_false, if_true,
        List.cons_append, List.nil_append]
      rw [readBody_unicode (by omega) digits, ih, Option.map_some, Char.ofNat_toNat]
    · simp [escapeChar, quot, bslash, bs, ff, nl, cr, tab, control, readBody, ih]

/-- JSON whitespace. -/
def isWhitespace (c : Char) : Bool := c = ' ' || c = '\t' || c = '\n' || c = '\r'

/-- The string a JSON text is, when it is one string literal between whitespace. -/
def stringValue? (text : String) : Option String :=
  match text.toList.dropWhile isWhitespace with
  | '"' :: body => do
    let (s, rest) ← readBody body
    if rest.all isWhitespace then some (String.ofList s) else none
  | _ => none

/-- A quoted string reads back as itself. -/
theorem stringValue?_quote (s : String) : stringValue? (quote s) = some s := by
  have body := readBody_escape s.toList []
  have text : (quote s).toList = '"' :: (s.toList.flatMap escapeChar ++ ['"']) := by simp [quote]
  have lead : ('"' :: (s.toList.flatMap escapeChar ++ ['"'])).dropWhile isWhitespace =
      '"' :: (s.toList.flatMap escapeChar ++ ['"']) := List.dropWhile_cons_of_neg (by decide)
  rw [stringValue?, text, lead]
  -- the opening quote is read, then the body up to the closing one; each step is read off by
  -- `show`, since a closing `simp` builds a term the kernel cannot check under all of Mathlib
  show (do
    let (s', rest) ← readBody (s.toList.flatMap escapeChar ++ ['"'])
    if rest.all isWhitespace then some (String.ofList s') else none) = some s
  rw [body]
  show some (String.ofList s.toList) = some s
  rw [String.ofList_toList]

end Json
