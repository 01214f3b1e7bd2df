import Mathlib.Logic.Basic
import Mathlib.Order.Basic

/-! Prefix-free maps from paths to leaves: the shape of a tree of named entries seen as the
set of its leaf paths. Removal, selection and overlay by path, and strict relocations of
everything below one path to below another, with the laws reverse mappings rely on. -/
namespace PathMap

variable {α β : Type*}

/-- Partial maps from paths to leaves. -/
abbrev Map (α β : Type*) := List α → Option β

/-- One path lies on the way to the other, or they are equal. -/
def Comparable (p q : List α) : Prop := p <+: q ∨ q <+: p

theorem comparable_refl (p : List α) : Comparable p p := Or.inl (List.prefix_refl p)

theorem comparable_symm {p q : List α} (h : Comparable p q) : Comparable q p := h.symm

/-- No leaf at the root, and no leaf strictly above another. -/
structure Valid (m : Map α β) : Prop where
  root : m [] = none
  prefixFree : ∀ p q, (m p).isSome → (m q).isSome → p <+: q → p = q

/-- Some leaf of `n` is comparable with `p`. -/
def Covers (n : Map α β) (p : List α) : Prop := ∃ q, (n q).isSome ∧ Comparable p q

/-- `m` is contained in `n`: every leaf of `m` is a leaf of `n`. -/
def Le (m n : Map α β) : Prop := ∀ p v, m p = some v → n p = some v

theorem Valid.eq_of_comparable {m : Map α β} (valid : Valid m) {p q : List α}
    (hp : (m p).isSome) (hq : (m q).isSome) (h : Comparable p q) : p = q := by
  rcases h with h | h
  · exact valid.prefixFree p q hp hq h
  · exact (valid.prefixFree q p hq hp h).symm

theorem covers_of_isSome {n : Map α β} {p : List α} (h : (n p).isSome) : Covers n p :=
  ⟨p, h, comparable_refl p⟩

open Classical in
/-- The leaves of `m` on whose way `n` has no leaf. -/
noncomputable def subtract (m n : Map α β) : Map α β := fun p =>
  if Covers n p then none else m p

open Classical in
/-- The leaves of `m` on whose way `n` has a leaf. -/
noncomputable def intersect (m n : Map α β) : Map α β := fun p =>
  if Covers n p then m p else none

open Classical in
/-- The leaves of `m`, and those of `n` that no leaf of `m` is comparable with. -/
noncomputable def overlay (m n : Map α β) : Map α β := fun p =>
  if (m p).isSome then m p else if Covers m p then none else n p

/-- The map without leaves. -/
def empty : Map α β := fun _ => none

/-- A leaf at the root is on the way to every path. -/
theorem covers_of_root {n : Map α β} (h : (n []).isSome) (p : List α) : Covers n p :=
  ⟨[], h, Or.inr (List.nil_prefix)⟩

/-- The root is on the way to every leaf. -/
theorem covers_nil {n : Map α β} {q : List α} (h : (n q).isSome) : Covers n [] :=
  ⟨q, h, Or.inl (List.nil_prefix)⟩

theorem subtract_eq_empty {m n : Map α β} (h : ∀ p, (m p).isSome → Covers n p) :
    subtract m n = empty := by
  funext p
  by_cases hc : Covers n p
  · simp [subtract, hc, empty]
  · cases hm : m p with
    | none => simp [subtract, hc, hm, empty]
    | some v => exact absurd (h p (by simp [hm])) hc

@[simp] theorem subtract_self (m : Map α β) : subtract m m = empty := by
  funext p
  cases h : m p with
  | none => simp [subtract, h, empty]
  | some v => simp [subtract, covers_of_isSome (n := m) (p := p) (by simp [h]), empty]

@[simp] theorem subtract_empty_left (n : Map α β) : subtract empty n = empty := by
  funext p
  simp [subtract, empty]

@[simp] theorem subtract_empty_right (m : Map α β) : subtract m empty = m := by
  funext p
  simp [subtract, Covers, empty]

/-- Overlaying leaves that `m` covers adds nothing. -/
theorem overlay_eq_left {m n : Map α β} (h : ∀ p, (n p).isSome → Covers m p) :
    overlay m n = m := by
  funext p
  by_cases hm : (m p).isSome
  · simp [overlay, hm]
  · have hmp : m p = none := by simpa using hm
    by_cases hc : Covers m p
    · simp [overlay, hc, hmp]
    · cases hn : n p with
      | none => simp [overlay, hc, hn, hmp]
      | some v => exact absurd (h p (by simp [hn])) hc

@[simp] theorem overlay_self (m : Map α β) : overlay m m = m := by
  funext p
  cases h : m p <;> simp [overlay, h]

@[simp] theorem overlay_empty_left (n : Map α β) : overlay empty n = n := by
  funext p
  simp [overlay, Covers, empty]

@[simp] theorem overlay_empty_right (m : Map α β) : overlay m empty = m := by
  funext p
  cases h : m p <;> simp [overlay, h, empty]

theorem subtract_isSome {m n : Map α β} {p : List α} :
    (subtract m n p).isSome ↔ ¬ Covers n p ∧ (m p).isSome := by
  by_cases hc : Covers n p <;> simp [subtract, hc]

theorem intersect_isSome {m n : Map α β} {p : List α} :
    (intersect m n p).isSome ↔ Covers n p ∧ (m p).isSome := by
  by_cases hc : Covers n p <;> simp [intersect, hc]

/-- Selecting by leaves that cover all of `m` keeps it whole. -/
theorem intersect_eq_left {m n : Map α β} (h : ∀ p, (m p).isSome → Covers n p) :
    intersect m n = m := by
  funext p
  by_cases hc : Covers n p
  · simp [intersect, hc]
  · cases hm : m p with
    | none => simp [intersect, hc]
    | some v => exact absurd (h p (by simp [hm])) hc

@[simp] theorem intersect_self (m : Map α β) : intersect m m = m :=
  intersect_eq_left fun _ hp => covers_of_isSome hp

@[simp] theorem intersect_empty_left (n : Map α β) : intersect empty n = empty := by
  funext p
  simp [intersect, empty]

@[simp] theorem intersect_empty_right (m : Map α β) : intersect m empty = empty := by
  funext p
  simp [intersect, Covers, empty]

section Child

/-- The map below the first component `a`. -/
def child (m : Map α β) (a : α) : Map α β := fun r => m (a :: r)

theorem ext_child {m n : Map α β} (root : m [] = n []) (h : ∀ a, child m a = child n a) :
    m = n := by
  funext p
  cases p with
  | nil => exact root
  | cons a r => exact congrFun (h a) r

theorem comparable_cons_iff {a b : α} {p q : List α} :
    Comparable (a :: p) (b :: q) ↔ a = b ∧ Comparable p q := by
  simp only [Comparable, List.cons_prefix_cons]
  constructor
  · rintro (⟨h, hp⟩ | ⟨h, hp⟩)
    · exact ⟨h, Or.inl hp⟩
    · exact ⟨h.symm, Or.inr hp⟩
  · rintro ⟨rfl, hp | hp⟩
    · exact Or.inl ⟨rfl, hp⟩
    · exact Or.inr ⟨rfl, hp⟩

/-- With no leaf at the root, the leaves comparable with a path below `a` lie below `a`. -/
theorem covers_cons_iff {n : Map α β} (root : n [] = none) (a : α) (p : List α) :
    Covers n (a :: p) ↔ Covers (child n a) p := by
  constructor
  · rintro ⟨q, hq, hc⟩
    cases q with
    | nil => simp [root] at hq
    | cons b r =>
      obtain ⟨rfl, hpr⟩ := comparable_cons_iff.mp hc
      exact ⟨r, hq, hpr⟩
  · rintro ⟨r, hr, hc⟩
    exact ⟨a :: r, hr, comparable_cons_iff.mpr ⟨rfl, hc⟩⟩

open Classical in
theorem subtract_child {n : Map α β} (root : n [] = none) (m : Map α β) (a : α) :
    child (subtract m n) a = subtract (child m a) (child n a) := by
  funext r
  exact if_congr (covers_cons_iff root a r) rfl rfl

open Classical in
theorem intersect_child {n : Map α β} (root : n [] = none) (m : Map α β) (a : α) :
    child (intersect m n) a = intersect (child m a) (child n a) := by
  funext r
  exact if_congr (covers_cons_iff root a r) rfl rfl

open Classical in
theorem overlay_child {m : Map α β} (root : m [] = none) (n : Map α β) (a : α) :
    child (overlay m n) a = overlay (child m a) (child n a) := by
  funext r
  exact if_congr Iff.rfl rfl (if_congr (covers_cons_iff root a r) rfl rfl)

@[simp] theorem child_empty (a : α) : child (empty : Map α β) a = empty := rfl

end Child

section Move

variable [DecidableEq α]

/-- Everything strictly below `x` moved to lie strictly below `y`. -/
def move (x y : List α) (m : Map α β) : Map α β := fun p =>
  if y <+: p ∧ y.length < p.length then m (x ++ p.drop y.length) else none

theorem move_apply_append (x y d : List α) (m : Map α β) (hd : d ≠ []) :
    move x y m (y ++ d) = m (x ++ d) := by
  simp [move, hd]

theorem move_eq_none {x y : List α} {m : Map α β} {p : List α}
    (h : ¬ (y <+: p ∧ y.length < p.length)) : move x y m p = none := by
  simp [move, h]

theorem move_isSome {x y : List α} {m : Map α β} {p : List α} (h : (move x y m p).isSome) :
    ∃ d, d ≠ [] ∧ p = y ++ d ∧ (m (x ++ d)).isSome := by
  by_cases hp : y <+: p ∧ y.length < p.length
  · obtain ⟨⟨d, rfl⟩, hlen⟩ := hp
    have hd : d ≠ [] := by
      intro hd
      subst hd
      simp at hlen
    refine ⟨d, hd, rfl, ?_⟩
    rwa [move_apply_append x y d m hd] at h
  · simp [move_eq_none hp] at h

theorem move_eq_none_of_ne {x y : List α} {m : Map α β} {p : List α}
    (h : ∀ d, d ≠ [] → p ≠ y ++ d) : move x y m p = none := by
  apply move_eq_none
  rintro ⟨⟨d, rfl⟩, hlen⟩
  apply h d _ rfl
  rintro rfl
  simp at hlen

@[simp] theorem move_nil_path (x y : List α) (m : Map α β) : move x y m [] = none := by
  simp [move]

/-- A move to below `a :: y` is, below `a`, the move to below `y`. -/
theorem move_cons_cons (x y : List α) (a b : α) (m : Map α β) (p : List α) :
    move x (a :: y) m (b :: p) = if a = b then move x y m p else none := by
  by_cases hab : a = b
  · subst hab
    simp [move, List.cons_prefix_cons]
  · simp [move, List.cons_prefix_cons, hab]

/-- Moving from the root to the root changes a map without a leaf at the root not at all. -/
theorem move_nil_nil {m : Map α β} (root : m [] = none) : move [] [] m = m := by
  funext p
  cases p with
  | nil => simp [root]
  | cons a r => simp [move]

/-- Moving back what was moved keeps exactly the leaves strictly below the origin. -/
theorem move_move_le (x y : List α) (m : Map α β) : Le (move y x (move x y m)) m := by
  intro p v h
  obtain ⟨d, hd, rfl, _⟩ := move_isSome (by rw [h]; rfl)
  rwa [move_apply_append y x d _ hd, move_apply_append x y d m hd] at h

end Move

/-- Overlaying a part of `P` with the rest of `P` gives back `P`. -/
theorem overlay_subtract_of_le {G P : Map α β} (valid : Valid P) (le : Le G P) :
    overlay G (subtract P G) = P := by
  funext p
  simp only [overlay, subtract]
  by_cases hG : (G p).isSome
  · obtain ⟨v, hv⟩ := Option.isSome_iff_exists.mp hG
    simp [hv, le p v hv]
  · simp only [hG, Bool.false_eq_true, if_false]
    by_cases hc : Covers G p
    · simp only [hc, if_true]
      obtain ⟨q, hq, hpq⟩ := hc
      cases hp : P p with
      | none => rfl
      | some v =>
        obtain ⟨w, hw⟩ := Option.isSome_iff_exists.mp hq
        have same : p = q := valid.eq_of_comparable (by simp [hp]) (by simp [le q w hw]) hpq
        subst same
        simp [hw] at hG
    · simp [hc]

section Reloc

variable [DecidableEq α]

/-- A strict relocation `some (x, y)` of everything below `x` to below `y`, or `none` for the
relocation that keeps nothing. Chains of subtree selections and prefixings denote these. -/
abbrev Reloc (α : Type*) := Option (List α × List α)

/-- The map transformer a relocation denotes. -/
def Reloc.sem : Reloc α → Map α β → Map α β
  | none, _ => empty
  | some (x, y), m => move x y m

/-- The relocation moving everything back. -/
def Reloc.inv (r : Reloc α) : Reloc α := r.map Prod.swap

/-- First `r`, then `s`: the relocation of the composite, `none` when the target of `r` and the
origin of `s` are incomparable. -/
def Reloc.comp : Reloc α → Reloc α → Reloc α
  | some (x₁, y₁), some (x₂, y₂) =>
    if x₂ <+: y₁ then some (x₁, y₂ ++ y₁.drop x₂.length)
    else if y₁ <+: x₂ then some (x₁ ++ x₂.drop y₁.length, y₂)
    else none
  | _, _ => none

omit [DecidableEq α] in
@[simp] theorem Reloc.inv_inv (r : Reloc α) : r.inv.inv = r := by
  cases r with
  | none => rfl
  | some xy => rfl

/-- The target of the first relocation lies below the origin of the second. -/
private theorem move_move_of_prefix (x₁ x₂ y₂ r : List α) (m : Map α β) :
    move x₂ y₂ (move x₁ (x₂ ++ r) m) = move x₁ (y₂ ++ r) m := by
  funext p
  by_cases hp : ∃ d, d ≠ [] ∧ p = y₂ ++ d
  · obtain ⟨d, hd, rfl⟩ := hp
    rw [move_apply_append x₂ y₂ d _ hd]
    by_cases he : ∃ e, e ≠ [] ∧ d = r ++ e
    · obtain ⟨e, he, rfl⟩ := he
      rw [← List.append_assoc, move_apply_append x₁ _ e m he, ← List.append_assoc,
        move_apply_append x₁ _ e m he]
    · have hne : ∀ e, e ≠ [] → d ≠ r ++ e := fun e h1 h2 => he ⟨e, h1, h2⟩
      rw [move_eq_none_of_ne (fun e h1 h2 => hne e h1 (by simpa using h2)),
        move_eq_none_of_ne (fun e h1 h2 => hne e h1 (by simpa using h2))]
  · have hne : ∀ d, d ≠ [] → p ≠ y₂ ++ d := fun d h1 h2 => hp ⟨d, h1, h2⟩
    rw [move_eq_none_of_ne hne, move_eq_none_of_ne]
    intro e he h
    apply hne (r ++ e) (by simp [he])
    simpa using h

/-- The origin of the second relocation lies below the target of the first. -/
private theorem move_move_of_prefix' (x₁ y₁ y₂ r : List α) (m : Map α β) :
    move (y₁ ++ r) y₂ (move x₁ y₁ m) = move (x₁ ++ r) y₂ m := by
  funext p
  by_cases hp : ∃ d, d ≠ [] ∧ p = y₂ ++ d
  · obtain ⟨d, hd, rfl⟩ := hp
    have hrd : r ++ d ≠ [] := by simp [hd]
    rw [move_apply_append _ y₂ d _ hd, move_apply_append _ y₂ d _ hd, List.append_assoc,
      move_apply_append x₁ y₁ _ m hrd, List.append_assoc]
  · have hne : ∀ d, d ≠ [] → p ≠ y₂ ++ d := fun d h1 h2 => hp ⟨d, h1, h2⟩
    rw [move_eq_none_of_ne hne, move_eq_none_of_ne hne]

private theorem move_move_incomparable {x₁ y₁ x₂ y₂ : List α} (m : Map α β)
    (h₁ : ¬ x₂ <+: y₁) (h₂ : ¬ y₁ <+: x₂) : move x₂ y₂ (move x₁ y₁ m) = empty := by
  funext p
  by_cases hp : ∃ d, d ≠ [] ∧ p = y₂ ++ d
  · obtain ⟨d, hd, rfl⟩ := hp
    rw [move_apply_append x₂ y₂ d _ hd]
    apply move_eq_none_of_ne
    intro e _ h
    rcases List.prefix_or_prefix_of_prefix (List.prefix_append x₂ d)
        (h ▸ List.prefix_append y₁ e) with h' | h'
    · exact h₁ h'
    · exact h₂ h'
  · exact move_eq_none_of_ne (fun d h1 h2 => hp ⟨d, h1, h2⟩)

theorem Reloc.sem_comp (r s : Reloc α) (m : Map α β) : (r.comp s).sem m = s.sem (r.sem m) := by
  rcases r with _ | ⟨x₁, y₁⟩ <;> rcases s with _ | ⟨x₂, y₂⟩
  · rfl
  · funext p
    simp [sem, comp, move, empty]
  · rfl
  · simp only [comp]
    split_ifs with h₁ h₂
    · obtain ⟨r, rfl⟩ := h₁
      simp [sem, move_move_of_prefix]
    · obtain ⟨r, rfl⟩ := h₂
      simp [sem, move_move_of_prefix']
    · exact (move_move_incomparable m h₁ h₂).symm

theorem Reloc.inv_comp (r s : Reloc α) : (r.comp s).inv = s.inv.comp r.inv := by
  rcases r with _ | ⟨x₁, y₁⟩ <;> rcases s with _ | ⟨x₂, y₂⟩
  · rfl
  · rfl
  · rfl
  · simp only [comp, inv, Option.map_some, Prod.swap_prod_mk]
    by_cases h₁ : x₂ <+: y₁ <;> by_cases h₂ : y₁ <+: x₂
    · have same : x₂ = y₁ := List.IsPrefix.eq_of_length h₁ (Nat.le_antisymm
        h₁.length_le h₂.length_le)
      subst same
      simp
    · simp [h₁, h₂]
    · simp [h₁, h₂]
    · simp [h₁, h₂]

/-- Put a changed view `T` back into the source `P`: the view moved back, over what of `P` the
relocation does not see. -/
noncomputable def Reloc.put (r : Reloc α) (T P : Map α β) : Map α β :=
  overlay (r.inv.sem T) (subtract P (r.inv.sem (r.sem P)))

/-- Undoing a composite undoes its second relocation first. -/
theorem Reloc.inv_sem_comp (r s : Reloc α) (m : Map α β) :
    (r.comp s).inv.sem m = r.inv.sem (s.inv.sem m) := by
  rw [Reloc.inv_comp, Reloc.sem_comp]

@[simp] theorem Reloc.sem_root (r : Reloc α) (m : Map α β) : r.sem m [] = none := by
  cases r with
  | none => rfl
  | some xy => exact move_nil_path xy.1 xy.2 m

/-- The relocation from the root to the root keeps a map with nothing at the root. -/
theorem Reloc.sem_nil {m : Map α β} (root : m [] = none) : Reloc.sem (some ([], [])) m = m :=
  move_nil_nil root

/-- Viewing a put-back view gives the view. -/
theorem Reloc.sem_put (r : Reloc α) (t₀ P : Map α β) : r.sem (r.put (r.sem t₀) P) = r.sem t₀ := by
  rcases r with _ | ⟨x, y⟩
  · rfl
  · funext p
    simp only [put, sem, inv, Option.map_some, Prod.swap_prod_mk]
    by_cases hp : ∃ d, d ≠ [] ∧ p = y ++ d
    · obtain ⟨d, hd, rfl⟩ := hp
      rw [move_apply_append x y d _ hd, move_apply_append x y d _ hd]
      have back : move y x (move x y t₀) (x ++ d) = t₀ (x ++ d) := by
        rw [move_apply_append y x d _ hd, move_apply_append x y d _ hd]
      have base : move y x (move x y P) (x ++ d) = P (x ++ d) := by
        rw [move_apply_append y x d _ hd, move_apply_append x y d _ hd]
      simp only [overlay, subtract, back]
      cases ht : t₀ (x ++ d) with
      | some v => rfl
      | none =>
        cases hP : P (x ++ d) with
        | none => split_ifs <;> rfl
        | some w =>
          have hc : Covers (move y x (move x y P)) (x ++ d) :=
            covers_of_isSome (by rw [base, hP]; rfl)
          simp [hc]
    · have hne : ∀ d, d ≠ [] → p ≠ y ++ d := fun d h1 h2 => hp ⟨d, h1, h2⟩
      rw [move_eq_none_of_ne hne, move_eq_none_of_ne hne]

/-- Putting back an unchanged view changes nothing. -/
theorem Reloc.put_sem (r : Reloc α) {P : Map α β} (valid : Valid P) : r.put (r.sem P) P = P := by
  rcases r with _ | ⟨x, y⟩
  · exact overlay_subtract_of_le valid (fun _ _ h => by simp [Reloc.sem, Reloc.inv, empty] at h)
  · exact overlay_subtract_of_le valid (move_move_le x y P)

end Reloc

section Validity

theorem Valid.mono {m n : Map α β} (valid : Valid n) (le : Le m n) : Valid m := by
  constructor
  · cases h : m [] with
    | none => rfl
    | some v =>
      have hn := le [] v h
      rw [valid.root] at hn
      cases hn
  · intro p q hp hq hpq
    obtain ⟨v, hv⟩ := Option.isSome_iff_exists.mp hp
    obtain ⟨w, hw⟩ := Option.isSome_iff_exists.mp hq
    exact valid.prefixFree p q (by simp [le p v hv]) (by simp [le q w hw]) hpq

theorem valid_empty : Valid (empty : Map α β) :=
  ⟨rfl, fun _ _ h => by simp [empty] at h⟩

theorem subtract_le (m n : Map α β) : Le (subtract m n) m := by
  intro p v h
  simp only [subtract] at h
  split_ifs at h
  exact h

theorem intersect_le (m n : Map α β) : Le (intersect m n) m := by
  intro p v h
  simp only [intersect] at h
  split_ifs at h
  exact h

theorem Valid.overlay {m n : Map α β} (vm : Valid m) (vn : Valid n) : Valid (overlay m n) := by
  constructor
  · simp [PathMap.overlay, vm.root, vn.root]
  · intro p q hp hq hpq
    simp only [PathMap.overlay] at hp hq
    by_cases mp : (m p).isSome <;> by_cases mq : (m q).isSome
    · exact vm.prefixFree p q mp mq hpq
    · simp only [mq, Bool.false_eq_true, if_false] at hq
      split_ifs at hq with hc
      · simp at hq
      · exact absurd ⟨p, mp, Or.inr hpq⟩ hc
    · simp only [mp, Bool.false_eq_true, if_false] at hp
      split_ifs at hp with hc
      · simp at hp
      · exact absurd ⟨q, mq, Or.inl hpq⟩ hc
    · simp only [mp, mq, Bool.false_eq_true, if_false] at hp hq
      have np : (n p).isSome := by by_cases c : Covers m p <;> simp_all
      have nq : (n q).isSome := by by_cases c : Covers m q <;> simp_all
      exact vn.prefixFree p q np nq hpq

/-! Within a prefix-free `m`, what `n` selects and what it removes are the two halves of `m`. -/

/-- A leaf of `m` lies on the way of what subtracting `n` leaves exactly when `n` misses it. -/
theorem Valid.covers_subtract_iff {m : Map α β} (valid : Valid m) (n : Map α β) {p : List α}
    (hp : (m p).isSome) : Covers (subtract m n) p ↔ ¬ Covers n p := by
  constructor
  · rintro ⟨q, hq, hpq⟩ hn
    obtain ⟨missed, hmq⟩ := subtract_isSome.mp hq
    rw [valid.eq_of_comparable hp hmq hpq] at hn
    exact missed hn
  · intro hn
    exact covers_of_isSome (subtract_isSome.mpr ⟨hn, hp⟩)

open Classical in
theorem Valid.subtract_subtract {m : Map α β} (valid : Valid m) (n : Map α β) :
    subtract m (subtract m n) = intersect m n := by
  funext p
  show (if Covers (subtract m n) p then none else m p) = if Covers n p then m p else none
  cases hp : m p with
  | none => split_ifs <;> rfl
  | some v =>
    have key := valid.covers_subtract_iff n (p := p) (by simp [hp])
    by_cases hn : Covers n p
    · rw [if_neg (fun h => key.mp h hn), if_pos hn]
    · rw [if_pos (key.mpr hn), if_neg hn]

theorem Valid.overlay_intersect_subtract {m : Map α β} (valid : Valid m) (n : Map α β) :
    PathMap.overlay (intersect m n) (subtract m n) = m := by
  funext p
  by_cases hn : Covers n p
  · -- `p` is on the selected side, where `subtract` has nothing
    have hs : subtract m n p = none := by simp [subtract, hn]
    have hi : intersect m n p = m p := by simp [intersect, hn]
    simp only [PathMap.overlay, hs, hi]
    split_ifs with hm <;> simp_all
  · -- `p` is on the removed side; a selected leaf on its way would be `p` itself
    have hs : subtract m n p = m p := by simp [subtract, hn]
    have hi : intersect m n p = none := by simp [intersect, hn]
    simp only [PathMap.overlay, hs, hi, Option.isSome_none, Bool.false_eq_true, if_false]
    split_ifs with hc
    · obtain ⟨q, hq, hpq⟩ := hc
      obtain ⟨hnq, hmq⟩ := intersect_isSome.mp hq
      cases hmp : m p with
      | none => rfl
      | some v =>
        rw [valid.eq_of_comparable (by simp [hmp]) hmq hpq] at hn
        exact absurd hnq hn
    · rfl

/-- No leaf `n` selects from `m` is comparable with a leaf it removes. -/
theorem Valid.intersect_subtract_apart {m : Map α β} (valid : Valid m) (n : Map α β)
    {p q : List α} (hp : (intersect m n p).isSome) (hq : (subtract m n q).isSome) :
    ¬ Comparable p q := by
  intro hpq
  obtain ⟨covered, hmp⟩ := intersect_isSome.mp hp
  obtain ⟨missed, hmq⟩ := subtract_isSome.mp hq
  rw [valid.eq_of_comparable hmp hmq hpq] at covered
  exact missed covered

variable [DecidableEq α]

theorem Valid.move {m : Map α β} (valid : Valid m) (x y : List α) : Valid (move x y m) := by
  constructor
  · exact move_eq_none (by simp)
  · intro p q hp hq hpq
    obtain ⟨d₁, hd₁, rfl, h₁⟩ := move_isSome hp
    obtain ⟨d₂, hd₂, rfl, h₂⟩ := move_isSome hq
    have hd : d₁ <+: d₂ := (List.prefix_append_right_inj y).mp hpq
    have same := valid.prefixFree _ _ h₁ h₂ ((List.prefix_append_right_inj x).mpr hd)
    rw [List.append_cancel_left same]

theorem Reloc.valid_sem (r : Reloc α) {m : Map α β} (valid : Valid m) : Valid (r.sem m) := by
  rcases r with _ | ⟨x, y⟩
  · exact valid_empty
  · exact valid.move x y

end Validity

/-! ### Holding back the leaves of one map

The leaves of `p` on the way of `s`, laid over what `s` leaves of `r`: `p` at the leaves of `s`
and `r` elsewhere, as long as neither map has a leaf strictly above or below one of `s`. -/

section Apart

/-- No leaf of `m` lies strictly above or below a leaf of `n`. -/
def Apart (m n : Map α β) : Prop := ∀ p q, (m p).isSome → (n q).isSome → Comparable p q → p = q

theorem overlay_intersect_subtract_of_isSome (p r : Map α β) {s : Map α β} {q : List α}
    (hs : (s q).isSome) : overlay (intersect p s) (subtract r s) q = p q := by
  have covered : Covers s q := covers_of_isSome hs
  cases hp : p q with
  | some v => simp [overlay, intersect, covered, hp]
  | none => simp [overlay, intersect, subtract, covered, hp]

theorem overlay_intersect_subtract_of_apart {p r s : Map α β} (ap : Apart p s) (ar : Apart r s)
    {q : List α} (hs : s q = none) : overlay (intersect p s) (subtract r s) q = r q := by
  by_cases covered : Covers s q
  · -- a leaf of `s` lies strictly above or below `q`, so neither map has a leaf at `q`
    obtain ⟨u, hu, comp⟩ := covered
    have absent : ∀ m : Map α β, Apart m s → m q = none := by
      intro m am
      cases hm : m q with
      | none => rfl
      | some v =>
        have same := am q u (by simp [hm]) hu comp
        simp [← same, hs] at hu
    have covered : Covers s q := ⟨u, hu, comp⟩
    simp [overlay, intersect, subtract, covered, absent p ap, absent r ar]
  · -- the leaves kept of `p` are leaves of `s` themselves, none on the way to `q`
    have free : ¬ Covers (intersect p s) q := by
      rintro ⟨v, hv, comp⟩
      obtain ⟨⟨u, hu, compu⟩, hpv⟩ := intersect_isSome.mp hv
      rw [← ap v u hpv hu compu] at hu
      exact covered ⟨v, hu, comp⟩
    simp [overlay, intersect, subtract, covered, free]

end Apart

end PathMap
