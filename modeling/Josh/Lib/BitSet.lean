import Mathlib.Data.Nat.Bitwise

/-! Sets of small numbers held in the bits of a machine word: membership is `testBit`, adding a
member is `|||` with a shifted one, and a loop over the members visits them lowest first, as a
loop on `trailing_zeros` does. A single ascending pass that adds `p + 1` after each member `p`
allowed to skip closes the set under those skips. -/

namespace BitSet

/-- The members of `s` below `width`, lowest first. -/
def members (width s : Nat) : List Nat := (List.range width).filter s.testBit

@[simp] theorem mem_members {width s p : Nat} : p ∈ members width s ↔ p < width ∧ s.testBit p := by
  simp [members]

@[simp] theorem testBit_or_shift (s p q : Nat) :
    (s ||| 1 <<< p).testBit q = (s.testBit q || decide (p = q)) := by
  simp [Nat.testBit_or, Nat.one_shiftLeft, Nat.testBit_two_pow]

@[simp] theorem testBit_one_shiftLeft (p q : Nat) : (1 <<< p).testBit q = decide (p = q) := by
  simp [Nat.one_shiftLeft, Nat.testBit_two_pow]

theorem testBit_one (q : Nat) : (1 : Nat).testBit q = decide (q = 0) := by
  cases q <;> simp [Nat.testBit_succ]

/-- A loop that only adds to its accumulator ends with the start's members and those added. -/
theorem testBit_foldl_or {α : Type} {f : Nat → α → Nat} {g : α → Nat}
    (hf : ∀ acc a, f acc a = acc ||| g a) (q : Nat) :
    ∀ (l : List α) (init : Nat),
      (l.foldl f init).testBit q = (init.testBit q || l.any fun a => (g a).testBit q)
  | [], init => by simp
  | a :: l, init => by
    rw [List.foldl_cons, testBit_foldl_or hf q l, hf, Nat.testBit_or, List.any_cons]
    simp only [Bool.or_assoc]

section Close

variable (skip : Nat → Bool)

/-- The pass over the positions below `m`: a member `p` that may skip adds `p + 1`, which the
pass then meets in turn. -/
def closeUp (m s : Nat) : Nat :=
  (List.range m).foldl (fun s p => if s.testBit p && skip p then s ||| 1 <<< (p + 1) else s) s

/-- The members after the pass: those of `s`, and every position up to `m` reached from a member
by skips. -/
theorem testBit_closeUp (s q : Nat) : ∀ m, (closeUp skip m s).testBit q = true ↔
    s.testBit q = true ∨ ∃ p < q, q ≤ m ∧ s.testBit p = true ∧ ∀ r, p ≤ r → r < q → skip r = true
  | 0 => by simp [closeUp]; omega
  | m + 1 => by
    have ih := testBit_closeUp s q m
    have here := testBit_closeUp s m m
    rw [closeUp, List.range_succ, List.foldl_append, List.foldl_cons, List.foldl_nil, ← closeUp]
    split
    · rename_i h
      obtain ⟨hm, hs⟩ := Bool.and_eq_true_iff.mp h
      rw [testBit_or_shift, Bool.or_eq_true, ih, decide_eq_true_iff]
      constructor
      · rintro ((hq | ⟨p, hp, hqm, hsp, skips⟩) | rfl)
        · exact .inl hq
        · exact .inr ⟨p, hp, by omega, hsp, skips⟩
        · -- the position added now: reached from `m` itself or from below it
          rcases here.mp hm with hm | ⟨p, hp, -, hsp, skips⟩
          · exact .inr ⟨m, by omega, le_refl _, hm, fun r h₁ h₂ => by rwa [show r = m by omega]⟩
          · refine .inr ⟨p, by omega, le_refl _, hsp, fun r h₁ h₂ => ?_⟩
            rcases Nat.lt_or_ge r m with hr | hr
            · exact skips r h₁ hr
            · rwa [show r = m by omega]
      · rintro (hq | ⟨p, hp, hqm, hsp, skips⟩)
        · exact .inl (.inl hq)
        · rcases Nat.lt_or_ge m q with hq | hq
          · exact .inr (by omega)
          · exact .inl (.inr ⟨p, hp, hq, hsp, skips⟩)
    · rename_i h
      rw [ih]
      constructor
      · rintro (hq | ⟨p, hp, hqm, hsp, skips⟩)
        · exact .inl hq
        · exact .inr ⟨p, hp, by omega, hsp, skips⟩
      · rintro (hq | ⟨p, hp, hqm, hsp, skips⟩)
        · exact .inl hq
        · rcases Nat.lt_or_ge m q with hq | hq
          · -- `q = m + 1` was reached through `m`, which the pass found not to skip
            have hm : (closeUp skip m s).testBit m = true := here.mpr (by
              rcases Nat.lt_or_ge p m with hpm | hpm
              · exact .inr ⟨p, hpm, le_refl _, hsp, fun r h₁ h₂ => skips r h₁ (by omega)⟩
              · obtain rfl : p = m := by omega
                exact .inl hsp)
            exact absurd (Bool.and_eq_true_iff.mpr ⟨hm, skips m (by omega) (by omega)⟩) h
          · exact .inr ⟨p, hp, hq, hsp, skips⟩

theorem testBit_closeUp_of (s : Nat) {m q : Nat} (h : s.testBit q = true) :
    (closeUp skip m s).testBit q = true :=
  (testBit_closeUp skip s q m).mpr (.inl h)

/-- After the pass, a member below `m` that may skip has its successor. -/
theorem testBit_closeUp_succ (s : Nat) {m p : Nat} (hp : (closeUp skip m s).testBit p = true)
    (hskip : skip p = true) (hm : p < m) : (closeUp skip m s).testBit (p + 1) = true := by
  refine (testBit_closeUp skip s (p + 1) m).mpr (.inr ?_)
  rcases (testBit_closeUp skip s p m).mp hp with hs | ⟨r, hr, -, hsr, skips⟩
  · exact ⟨p, by omega, hm, hs, fun r h₁ h₂ => by rwa [show r = p by omega]⟩
  · refine ⟨r, by omega, hm, hsr, fun r' h₁ h₂ => ?_⟩
    rcases Nat.lt_or_ge r' p with h | h
    · exact skips r' h₁ h
    · rwa [show r' = p by omega]

end Close

/-- In a set `S` closed under the skips `K`, a witness of `A` that is either local (`L`) or skips
to a witness one higher, below a bound, leads to a local witness in the set. -/
theorem exists_of_closed {S A L K : Nat → Prop} {k : Nat}
    (closed : ∀ p, S p → K p → S (p + 1)) (bound : ∀ p, A p → p < k)
    (step : ∀ p, A p → L p ∨ (K p ∧ A (p + 1))) :
    ∀ {p : Nat}, S p → A p → ∃ q, S q ∧ L q := by
  suffices ∀ n p, k - p = n → S p → A p → ∃ q, S q ∧ L q from fun {p} hS hA => this _ p rfl hS hA
  intro n
  induction n with
  | zero => intro p hn _ hA; have := bound p hA; omega
  | succ n ih =>
    intro p hn hS hA
    rcases step p hA with hL | ⟨hskip, hA'⟩
    · exact ⟨p, hS, hL⟩
    · exact ih (p + 1) (by omega) (closed p hS hskip) hA'

end BitSet
