import Mathlib

/-! Fixed-width hexadecimal numerals, the most significant digit first: the text of a hash of a
fixed number of bits. Below `16 ^ width` the numeral determines the number. -/

namespace Nat

/-- The low `width` hexadecimal digits of `n`, the most significant first. -/
def hexDigits : Nat → Nat → List Char
  | 0, _ => []
  | width + 1, n => hexDigits width (n / 16) ++ [Nat.digitChar (n % 16)]

@[simp] theorem length_hexDigits (width n : Nat) : (hexDigits width n).length = width := by
  induction width generalizing n with
  | zero => rfl
  | succ w ih => simp [hexDigits, ih]

theorem digitChar_inj_of_lt {a b : Nat} (ha : a < 16) (hb : b < 16)
    (h : digitChar a = digitChar b) : a = b := by
  have hex : ∀ x y : Fin 16, digitChar x = digitChar y → x = y := by decide
  exact congrArg Fin.val (hex ⟨a, ha⟩ ⟨b, hb⟩ h)

theorem hexDigits_inj {width m n : Nat} (hm : m < 16 ^ width) (hn : n < 16 ^ width)
    (h : hexDigits width m = hexDigits width n) : m = n := by
  induction width generalizing m n with
  | zero => simp at hm hn; omega
  | succ w ih =>
    -- the last digit is `n % 16`, the others are the digits of `n / 16`
    obtain ⟨high, low⟩ := List.append_inj h (by simp)
    have hlow : m % 16 = n % 16 :=
      digitChar_inj_of_lt (Nat.mod_lt _ (by omega)) (Nat.mod_lt _ (by omega)) (by simpa using low)
    have bound : ∀ k, k < 16 ^ (w + 1) → k / 16 < 16 ^ w := fun k hk =>
      Nat.div_lt_of_lt_mul (by rwa [Nat.pow_succ, Nat.mul_comm] at hk)
    have hhigh : m / 16 = n / 16 := ih (bound m hm) (bound n hn) high
    omega

theorem mem_hexDigits {width n : Nat} {c : Char} (h : c ∈ hexDigits width n) :
    ∃ k < 16, c = digitChar k := by
  induction width generalizing n with
  | zero => cases h
  | succ w ih =>
    rcases List.mem_append.mp h with h | h
    · exact ih h
    · exact ⟨n % 16, Nat.mod_lt _ (by omega), List.mem_singleton.mp h⟩

end Nat
