import Mathlib.Logic.Basic
import Mathlib.Data.List.Basic
import Mathlib.Data.List.Nodup

/-! Finite maps as association lists, the newest binding of a key first: the model of a hash
map or of a keyed store whose iteration order does not matter to the results proved. -/

namespace Assoc

variable {α β : Type*} [DecidableEq α]

/-- The value bound to `a`. -/
def find (m : List (α × β)) (a : α) : Option β := (m.find? (·.1 = a)).map (·.2)

/-- `m` with `a` bound to `b`, replacing any binding of `a`. -/
def set (m : List (α × β)) (a : α) (b : β) : List (α × β) := (a, b) :: m.filter (·.1 ≠ a)

/-- The `insert` of a map kept sorted by its keys: the binding goes before the first greater
key and replaces the binding of an equal one. -/
def insertSorted [LT α] [DecidableRel (α := α) (· < ·)] : List (α × β) → α → β → List (α × β)
  | [], a, b => [(a, b)]
  | (k, v) :: rest, a, b =>
    if a < k then (a, b) :: (k, v) :: rest
    else if a = k then (a, b) :: rest
    else (k, v) :: insertSorted rest a b

@[simp] theorem find_nil (a : α) : find ([] : List (α × β)) a = none := rfl

theorem find_cons (a a' : α) (b : β) (m : List (α × β)) :
    find ((a', b) :: m) a = if a' = a then some b else find m a := by
  by_cases h : a' = a <;> simp [find, h]

@[simp] theorem find_set_self (m : List (α × β)) (a : α) (b : β) : find (set m a b) a = some b := by
  simp [find, set]

theorem find_filter_ne (m : List (α × β)) {a a' : α} (h : a' ≠ a) :
    find (m.filter (·.1 ≠ a')) a = find m a := by
  induction m with
  | nil => rfl
  | cons e m ih =>
    obtain ⟨k, v⟩ := e
    -- the filter's test as simp states it, in the hypothesis as in the goal
    simp only [ne_eq, decide_not] at ih ⊢
    by_cases hk : k = a'
    · subst hk
      simp [find_cons, h, ih]
    · simp [find_cons, hk, ih]

@[simp] theorem find_set_ne (m : List (α × β)) {a a' : α} (h : a' ≠ a) (b : β) :
    find (set m a' b) a = find m a := by
  rw [set, find_cons, if_neg h, find_filter_ne m h]

theorem mem_set {m : List (α × β)} {a : α} {b : β} {p : α × β} (h : p ∈ set m a b) :
    p = (a, b) ∨ p ∈ m := by
  rcases List.mem_cons.mp h with h | h
  · exact .inl h
  · exact .inr (List.mem_filter.mp h).1

theorem find_set (m : List (α × β)) (a a' : α) (b : β) :
    find (set m a' b) a = if a' = a then some b else find m a := by
  by_cases h : a' = a
  · subst h
    simp
  · simp [h]

theorem find_eq_none_of_not_mem {m : List (α × β)} {a : α} (h : a ∉ m.map Prod.fst) :
    find m a = none := by
  simp only [find, Option.map_eq_none_iff, List.find?_eq_none, decide_eq_true_eq]
  exact fun p hp hpa => h (List.mem_map.mpr ⟨p, hp, hpa⟩)

theorem mem_of_find {m : List (α × β)} {a : α} {b : β} (h : find m a = some b) : (a, b) ∈ m := by
  induction m with
  | nil => simp at h
  | cons p m ih =>
    obtain ⟨k, v⟩ := p
    rw [find_cons] at h
    split_ifs at h with hk
    · cases h
      subst hk
      exact List.mem_cons_self
    · exact List.mem_cons_of_mem _ (ih h)

theorem find_map_snd {γ : Type*} (g : β → γ) (m : List (α × β)) (a : α) :
    find (m.map fun p => (p.1, g p.2)) a = (find m a).map g := by
  induction m with
  | nil => rfl
  | cons p m ih =>
    obtain ⟨k, v⟩ := p
    simp only [List.map_cons, find_cons, ih]
    split_ifs <;> rfl

/-- A missing list reads as the empty one. -/
theorem bind_find (o : Option (List (α × β))) (a : α) : o.bind (find · a) = find (o.getD []) a := by
  cases o <;> rfl

theorem find_append (l₁ l₂ : List (α × β)) (a : α) :
    find (l₁ ++ l₂) a = (find l₁ a).or (find l₂ a) := by
  induction l₁ with
  | nil => simp
  | cons p l ih =>
    rw [List.cons_append, find_cons, find_cons, ih]
    split_ifs <;> simp

/-- Binding every pair of a list in turn: the last binding of a key wins. -/
theorem find_foldl_set (l m : List (α × β)) (a : α) :
    find (l.foldl (fun t p => set t p.1 p.2) m) a = (find l.reverse a).or (find m a) := by
  induction l generalizing m with
  | nil => simp
  | cons p l ih =>
    rw [List.foldl_cons, ih, List.reverse_cons, find_append, find_set, find_cons, find_nil]
    split_ifs <;> simp

theorem nodup_keys_set {m : List (α × β)} (h : (m.map Prod.fst).Nodup) (a : α) (b : β) :
    ((set m a b).map Prod.fst).Nodup := by
  have rest : ((m.filter (·.1 ≠ a)).map Prod.fst).Nodup := h.sublist ((List.filter_sublist).map _)
  refine List.nodup_cons.mpr ⟨?_, rest⟩
  simp

/-- A fold whose every step leaves the value of `a` alone leaves it alone. -/
theorem find_foldl_frame {ε : Type*} (step : List (α × β) → ε → List (α × β)) (a : α)
    (l : List ε) (m : List (α × β)) (frame : ∀ e ∈ l, ∀ t, find (step t e) a = find t a) :
    find (l.foldl step m) a = find m a := by
  induction l generalizing m with
  | nil => rfl
  | cons e l ih =>
    rw [List.foldl_cons, ih _ (fun e' he' => frame e' (List.mem_cons_of_mem e he')),
      frame e List.mem_cons_self]

/-- Binding the pairs of a list with distinct keys under a renaming of keys and values: the
renamed key of `a` gets the renamed value of `a`, where no other key of the list is renamed
to it. -/
theorem find_foldl_set_map {γ δ : Type*} [DecidableEq γ] (g : α → γ) (h : β → δ)
    (l : List (α × β)) (m : List (γ × δ)) (a : α) (keys : (l.map Prod.fst).Nodup)
    (apart : ∀ p ∈ l, g p.1 = g a → p.1 = a) :
    find (l.foldl (fun t p => set t (g p.1) (h p.2)) m) (g a) = ((find l a).map h).or (find m (g a)) := by
  induction l generalizing m with
  | nil => simp
  | cons p l ih =>
    obtain ⟨k, v⟩ := p
    obtain ⟨hk, keys⟩ := List.nodup_cons.mp keys
    rw [List.foldl_cons, ih _ keys (fun p hp => apart p (List.mem_cons_of_mem _ hp)), find_cons]
    by_cases hka : k = a
    · -- `a` is bound here and nowhere later in the list
      subst hka
      simp [find_eq_none_of_not_mem hk]
    · have hg : g k ≠ g a := fun hg => hka (apart (k, v) List.mem_cons_self hg)
      rw [find_set_ne _ hg, if_neg hka]

theorem find_reverse {m : List (α × β)} (keys : (m.map Prod.fst).Nodup) (a : α) :
    find m.reverse a = find m a := by
  induction m with
  | nil => rfl
  | cons p m ih =>
    obtain ⟨hp, keys⟩ := List.nodup_cons.mp keys
    rw [List.reverse_cons, find_append, ih keys, find_cons, find_cons, find_nil]
    by_cases hpa : p.1 = a
    · subst hpa
      simp [find_eq_none_of_not_mem hp]
    · simp [hpa]

theorem find_eq_none_iff {m : List (α × β)} {a : α} : find m a = none ↔ a ∉ m.map Prod.fst := by
  simp only [find, Option.map_eq_none_iff, List.find?_eq_none, decide_eq_true_eq, List.mem_map]
  exact ⟨fun h ⟨p, hp, hpa⟩ => h p hp hpa, fun h p hp hpa => h ⟨p, hp, hpa⟩⟩

/-- With distinct keys, the value of a key is the one it is bound to. -/
theorem find_eq_some_iff {m : List (α × β)} (keys : (m.map Prod.fst).Nodup) {a : α} {b : β} :
    find m a = some b ↔ (a, b) ∈ m := by
  refine ⟨mem_of_find, fun hm => ?_⟩
  induction m with
  | nil => cases hm
  | cons p m ih =>
    obtain ⟨hp, keys⟩ := List.nodup_cons.mp keys
    rw [find_cons]
    rcases List.mem_cons.mp hm with rfl | hm
    · simp
    · -- `a` is bound further down, so not by the head
      have hpa : p.1 ≠ a := fun h => hp (h ▸ List.mem_map.mpr ⟨(a, b), hm, rfl⟩)
      rw [if_neg hpa, ih keys hm]

/-- A map with distinct keys reads the same in any order of its bindings. -/
theorem find_perm {m₁ m₂ : List (α × β)} (h : m₁.Perm m₂) (keys : (m₁.map Prod.fst).Nodup)
    (a : α) : find m₁ a = find m₂ a := by
  have keys₂ : (m₂.map Prod.fst).Nodup := (h.map Prod.fst).nodup_iff.mp keys
  cases h₁ : find m₁ a with
  | none =>
    have missing : a ∉ m₂.map Prod.fst := fun hm => find_eq_none_iff.mp h₁ ((h.map _).mem_iff.mpr hm)
    exact (find_eq_none_iff.mpr missing).symm
  | some b => exact ((find_eq_some_iff keys₂).mpr (h.subset ((find_eq_some_iff keys).mp h₁))).symm

section Indexed

variable {key : Nat → α}

/-- The entries of a list named by an injective function of their index: the name of index
`n + i` reads the list at `i`. -/
theorem find_zipIdx_map (inj : Function.Injective key) (l : List β) (n i : Nat) :
    find ((l.zipIdx n).map fun p => (key p.2, p.1)) (key (n + i)) = l[i]? := by
  induction l generalizing n i with
  | nil => simp
  | cons b l ih =>
    rw [List.zipIdx_cons, List.map_cons, find_cons]
    cases i with
    | zero => simp
    | succ i =>
      have hne : key n ≠ key (n + (i + 1)) := fun h => by have := inj h; omega
      rw [if_neg hne, show n + (i + 1) = n + 1 + i by omega, ih]
      rfl

omit [DecidableEq α] in
theorem nodup_keys_zipIdx_map (inj : Function.Injective key) (l : List β) (n : Nat) :
    (((l.zipIdx n).map fun p => (key p.2, p.1)).map Prod.fst).Nodup := by
  have names : ((l.zipIdx n).map fun p => (key p.2, p.1)).map Prod.fst =
      (List.range' n l.length).map key := by
    rw [List.map_map, ← List.zipIdx_map_snd, List.map_map]
    rfl
  rw [names]
  exact List.Nodup.map inj List.nodup_range'

end Indexed

end Assoc
