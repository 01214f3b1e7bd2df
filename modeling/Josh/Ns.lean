import Mathlib.Data.List.Basic

/-! The ref namespaces of upstream repositories and filters, `to_ns` and `to_filtered_ref` of
`josh-core/src/lib.rs`. A name is percent-encoded with `utf8_percent_encode` over the set
`FRAGMENT`, which holds the separator `/` but not `%` itself: the text `%2F` passes through, so
a name with `/` and the same name with `%2F` in its place share one namespace. -/

namespace Josh

/-- `FRAGMENT`: the controls, and `/ * space ~ ^ : ? [ ] { } @ \`. -/
def fragment (c : Char) : Bool :=
  c.toNat < 0x20 || c.toNat == 0x7F ||
    [('/' : Char), '*', ' ', '~', '^', ':', '?', '[', ']', '{', '}', '@', '\\'].contains c

/-- An upper-case hexadecimal digit. -/
def hexUpper (n : Nat) : Char := Char.ofNat (if n < 10 then 48 + n else 55 + n)

/-- A byte as `%XX`. -/
def percentByte (b : UInt8) : List Char := ['%', hexUpper (b.toNat / 16), hexUpper (b.toNat % 16)]

/-- `utf8_percent_encode` of one character: every byte of a non-ASCII character is encoded, and
an ASCII one exactly when the set holds it. -/
def encodeChar (set : Char → Bool) (c : Char) : List Char :=
  if c.toNat < 0x80 then (if set c then percentByte (UInt8.ofNat c.toNat) else [c])
  else (String.utf8EncodeChar c).flatMap percentByte

/-- `trim_matches('/')`. -/
def trimSlashes (s : List Char) : List Char :=
  ((s.dropWhile (· == '/')).reverse.dropWhile (· == '/')).reverse

/-- `to_ns`. -/
def toNs (path : String) : String :=
  String.ofList ((trimSlashes path.toList).flatMap (encodeChar fragment))

/-- `to_filtered_ref`. -/
def toFilteredRef (upstreamRepo filterSpec : String) : String :=
  "josh/filtered/" ++ toNs upstreamRepo ++ "/" ++ toNs filterSpec

theorem encodeChar_slash : encodeChar fragment '/' = ['%', '2', 'F'] := by decide

theorem encodeChar_escape : ['%', '2', 'F'].flatMap (encodeChar fragment) = ['%', '2', 'F'] := by
  decide

/-- A name that neither starts nor ends with `/` is not trimmed. -/
theorem trimSlashes_of_ends {s : List Char} (head : s.head? ≠ some '/')
    (last : s.getLast? ≠ some '/') : trimSlashes s = s := by
  have front : s.dropWhile (· == '/') = s := by
    cases s with
    | nil => rfl
    | cons c cs => exact List.dropWhile_cons_of_neg (by simpa using head)
  have back : s.reverse.dropWhile (· == '/') = s.reverse := by
    cases h : s.reverse with
    | nil => rfl
    | cons c cs =>
      have hc : s.getLast? = some c := by
        rw [← List.head?_reverse, h]
        rfl
      exact List.dropWhile_cons_of_neg (by simpa [hc] using last)
  rw [trimSlashes, front, back, List.reverse_reverse]

/-- Around a `/` and around the text `%2F` in its place, `to_ns` writes the same namespace, so
two different upstream repositories, or two filters, share one. -/
theorem to_ns_collides_on_escaped_slash (u v : String) (head : u.toList.head? ≠ some '/')
    (hu : u ≠ "") (last : v.toList.getLast? ≠ some '/') (hv : v ≠ "") :
    u ++ "/" ++ v ≠ u ++ "%2F" ++ v ∧ toNs (u ++ "/" ++ v) = toNs (u ++ "%2F" ++ v) ∧
      (∀ spec, toFilteredRef (u ++ "/" ++ v) spec = toFilteredRef (u ++ "%2F" ++ v) spec) ∧
      ∀ fromNs : String → String,
        fromNs (toNs (u ++ "/" ++ v)) ≠ u ++ "/" ++ v ∨
          fromNs (toNs (u ++ "%2F" ++ v)) ≠ u ++ "%2F" ++ v := by
  have lengths : (u ++ "/" ++ v).length ≠ (u ++ "%2F" ++ v).length := by
    simp only [String.length_append]
    have : ("/" : String).length ≠ ("%2F" : String).length := by decide
    omega
  have distinct : u ++ "/" ++ v ≠ u ++ "%2F" ++ v := fun h => lengths (congrArg String.length h)
  -- both names keep their ends, so `to_ns` encodes them character by character
  have ends : ∀ mid : List Char, mid ≠ [] →
      trimSlashes (u.toList ++ mid ++ v.toList) = u.toList ++ mid ++ v.toList := by
    intro mid _
    have hu' : u.toList ≠ [] := by simpa using hu
    have hv' : v.toList ≠ [] := by simpa using hv
    apply trimSlashes_of_ends
    · obtain ⟨c, cs, hc⟩ := List.exists_cons_of_ne_nil hu'
      simpa [hc] using head
    · rw [List.getLast?_append_of_ne_nil _ hv']
      exact last
  have same : toNs (u ++ "/" ++ v) = toNs (u ++ "%2F" ++ v) := by
    simp only [toNs, String.toList_append]
    rw [ends _ (by simp), ends _ (by simp)]
    simp only [List.flatMap_append]
    rw [show ("/" : String).toList = ['/'] from rfl, show ("%2F" : String).toList = ['%', '2', 'F'] from rfl,
      List.flatMap_singleton, encodeChar_slash, encodeChar_escape]
  refine ⟨distinct, same, fun spec => by rw [toFilteredRef, toFilteredRef, same], fun fromNs => ?_⟩
  -- one decoder output cannot be both names
  by_cases first : fromNs (toNs (u ++ "/" ++ v)) = u ++ "/" ++ v
  · refine .inr fun second => distinct (first.symm.trans ?_)
    rwa [same]
  · exact .inl first

/- The shortest instance: `a/b` and `a%2Fb`. -/
theorem to_ns_collides_on_a_b :
    ("a" : String).toList.head? ≠ some '/' ∧ ("a" : String) ≠ "" ∧
      ("b" : String).toList.getLast? ≠ some '/' ∧ ("b" : String) ≠ "" ∧
      "a" ++ "/" ++ "b" ≠ "a" ++ "%2F" ++ "b" ∧ toNs ("a" ++ "/" ++ "b") = toNs ("a" ++ "%2F" ++ "b") ∧
      (∀ spec, toFilteredRef ("a" ++ "/" ++ "b") spec = toFilteredRef ("a" ++ "%2F" ++ "b") spec) ∧
      ∀ fromNs : String → String,
        fromNs (toNs ("a" ++ "/" ++ "b")) ≠ "a" ++ "/" ++ "b" ∨
          fromNs (toNs ("a" ++ "%2F" ++ "b")) ≠ "a" ++ "%2F" ++ "b" := by
  have head : ("a" : String).toList.head? ≠ some '/' := by decide
  have hu : ("a" : String) ≠ "" := by decide
  have last : ("b" : String).toList.getLast? ≠ some '/' := by decide
  have hv : ("b" : String) ≠ "" := by decide
  exact ⟨head, hu, last, hv, to_ns_collides_on_escaped_slash "a" "b" head hu last hv⟩

end Josh
