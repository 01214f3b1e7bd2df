import Mathlib.Data.List.Forall2

/-! Computations in `Except`: what a successful `do` block was made of. Models of fallible code
are peeled apart with these, step by step, without unfolding the monad. -/

namespace Except

universe u v

variable {ε : Type u} {α β σ : Type v}

@[simp] theorem ok_bind (a : α) (f : α → Except ε β) : (Except.ok a >>= f) = f a := rfl

@[simp] theorem error_bind (e : ε) (f : α → Except ε β) :
    (Except.error e >>= f) = Except.error e := rfl

theorem bind_eq_ok {x : Except ε α} {f : α → Except ε β} {b : β} :
    (x >>= f) = .ok b ↔ ∃ a, x = .ok a ∧ f a = .ok b := by
  cases x <;> simp [bind, Except.bind]

theorem map_eq_ok {x : Except ε α} {f : α → β} {b : β} :
    (f <$> x) = .ok b ↔ ∃ a, x = .ok a ∧ f a = b := by
  cases x <;> simp [Functor.map, Except.map]

/-- A fold whose first step succeeds goes on from that step's state. -/
theorem foldlM_cons_of_ok {f : σ → α → Except ε σ} {s s' : σ} {a : α} (l : List α)
    (h : f s a = .ok s') : (a :: l).foldlM f s = l.foldlM f s' := by
  rw [List.foldlM_cons, h, ok_bind]

/-- Each output of a successful `mapM` is the image of an input. -/
theorem mapM_eq_ok {f : α → Except ε β} {l : List α} {r : List β} (h : l.mapM f = .ok r) :
    List.Forall₂ (fun a b => f a = .ok b) l r := by
  induction l generalizing r with
  | nil =>
    cases h
    exact .nil
  | cons a l ih =>
    simp only [List.mapM_cons, bind_eq_ok] at h
    obtain ⟨b, hb, bs, hbs, hr⟩ := h
    cases hr
    exact .cons hb (ih hbs)

/-- `mapM` succeeds when each input has an image. -/
theorem mapM_of_forall₂ {f : α → Except ε β} {l : List α} {r : List β}
    (h : List.Forall₂ (fun a b => f a = .ok b) l r) : l.mapM f = .ok r := by
  induction h with
  | nil => rfl
  | cons hb _ ih => simp [List.mapM_cons, hb, ih]

/-- `mapM` succeeds when each input has an image, and relates each input to its image. -/
theorem mapM_ok_of_forall {f : α → Except ε β} {P : α → β → Prop} :
    ∀ {l : List α}, (∀ a ∈ l, ∃ b, f a = .ok b ∧ P a b) →
      ∃ r, l.mapM f = .ok r ∧ List.Forall₂ P l r
  | [], _ => ⟨[], rfl, .nil⟩
  | a :: l, h => by
    obtain ⟨b, hb, hab⟩ := h a List.mem_cons_self
    obtain ⟨r, hr, hlr⟩ := mapM_ok_of_forall fun x hx => h x (List.mem_cons_of_mem a hx)
    exact ⟨b :: r, by simp [List.mapM_cons, hb, hr], .cons hab hlr⟩

end Except
