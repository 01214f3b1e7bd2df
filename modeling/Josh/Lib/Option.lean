import Mathlib.Data.List.Forall2

/-! Computations in `Option`: what a successful `mapM` or `foldlM` was made of, and invariants
carried through them. -/

namespace Option

universe u v

variable {α β σ : Type u}

/-- Each output of a successful `mapM` is the image of an input. -/
theorem mapM_forall₂ {f : α → Option β} {l : List α} {r : List β} (h : l.mapM f = some r) :
    List.Forall₂ (fun a b => f a = some b) l r := by
  induction l generalizing r with
  | nil =>
    cases h
    exact .nil
  | cons a l ih =>
    simp only [List.mapM_cons, Option.bind_eq_bind, Option.bind_eq_some_iff] at h
    obtain ⟨b, hb, bs, hbs, hr⟩ := h
    cases hr
    exact .cons hb (ih hbs)

/-- `mapM` succeeds when each input has an image. -/
theorem mapM_of_forall₂ {γ : Type*} {f : γ → Option β} {l : List γ} {r : List β}
    (h : List.Forall₂ (fun a b => f a = some b) l r) : l.mapM f = some r := by
  induction h with
  | nil => rfl
  | cons hb _ ih => simp [List.mapM_cons, hb, ih]

/-- Reading a list at each of its indices in turn gives the list. -/
theorem mapM_range_getElem? (l : List α) : (List.range l.length).mapM (fun i => l[i]?) = some l := by
  apply mapM_of_forall₂
  rw [List.forall₂_iff_get]
  exact ⟨by simp, fun i _ _ => by simp⟩

theorem exists_of_mem_mapM {f : α → Option β} {l : List α} {r : List β} (h : l.mapM f = some r)
    {b : β} (hb : b ∈ r) : ∃ a ∈ l, f a = some b := by
  have images := mapM_forall₂ h
  clear h
  induction images with
  | nil => cases hb
  | @cons a b' l r hab _ ih =>
    rcases List.mem_cons.mp hb with rfl | hb
    · exact ⟨a, List.mem_cons_self, hab⟩
    · obtain ⟨a', ha', h'⟩ := ih hb
      exact ⟨a', List.mem_cons_of_mem a ha', h'⟩

/-- Each input of a successful `mapM` has its image among the outputs. -/
theorem exists_mem_of_mapM {f : α → Option β} {l : List α} {r : List β} (h : l.mapM f = some r)
    {a : α} (ha : a ∈ l) : ∃ b ∈ r, f a = some b := by
  have images := mapM_forall₂ h
  clear h
  induction images with
  | nil => cases ha
  | @cons a' b l r hab _ ih =>
    rcases List.mem_cons.mp ha with rfl | ha
    · exact ⟨b, List.mem_cons_self, hab⟩
    · obtain ⟨b', hb', h'⟩ := ih ha
      exact ⟨b', List.mem_cons_of_mem b hb', h'⟩

/-- A `mapM` reads its function on the list's members only. -/
theorem mapM_congr_of_mem {f g : α → Option β} :
    ∀ {l : List α}, (∀ a ∈ l, f a = g a) → l.mapM f = l.mapM g
  | [], _ => rfl
  | a :: l, h => by
    simp only [List.mapM_cons, h a List.mem_cons_self,
      mapM_congr_of_mem fun x hx => h x (List.mem_cons_of_mem a hx)]

/-- A `mapM` succeeds exactly when the function does on every member. -/
theorem isSome_mapM_iff {f : α → Option β} :
    ∀ {l : List α}, (l.mapM f).isSome ↔ ∀ a ∈ l, (f a).isSome
  | [] => by simp
  | a :: l => by
    rw [List.mapM_cons, List.forall_mem_cons, ← isSome_mapM_iff]
    cases f a <;> cases l.mapM f <;> simp

/-- An invariant of the state that each step keeps holds of the result of a fold. -/
theorem foldlM_invariant {f : σ → α → Option σ} (P : σ → Prop) (Q : α → Prop)
    (step : ∀ s a s', P s → Q a → f s a = some s' → P s') :
    ∀ (l : List α) (s s' : σ), P s → (∀ a ∈ l, Q a) → l.foldlM f s = some s' → P s' := by
  intro l
  induction l with
  | nil =>
    intro s s' hs _ h
    cases h
    exact hs
  | cons a l ih =>
    intro s s' hs hl h
    simp only [List.foldlM_cons, Option.bind_eq_bind, Option.bind_eq_some_iff] at h
    obtain ⟨t, ht, h⟩ := h
    exact ih t s' (step s a t hs (hl a List.mem_cons_self) ht)
      (fun b hb => hl b (List.mem_cons_of_mem a hb)) h

end Option
