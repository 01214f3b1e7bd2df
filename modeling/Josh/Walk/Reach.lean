import Josh.Walk.RevWalk

/-! Reachability along parent edges in a finite commit graph without cycles: what the walks of
`josh-gix-ext/src/revwalk.rs` and the history-graph cache compute over. -/

namespace Josh

section Dag

variable {C : Type*} (parents : C → List C)

/- A commit reaches its ancestors, itself included. -/
def Reaches (c d : C) : Prop := Relation.ReflTransGen (fun c p => p ∈ parents c) c d

variable {parents}

theorem Reaches.refl (c : C) : Reaches parents c c := Relation.ReflTransGen.refl

theorem Reaches.parent {c p d : C} (hp : p ∈ parents c) (h : Reaches parents p d) :
    Reaches parents c d :=
  Relation.ReflTransGen.head hp h

theorem Reaches.trans {c d e : C} (h₁ : Reaches parents c d) (h₂ : Reaches parents d e) :
    Reaches parents c e :=
  Relation.ReflTransGen.trans h₁ h₂

theorem Reaches.tail {c p d : C} (h : Reaches parents c p) (hd : d ∈ parents p) :
    Reaches parents c d :=
  Relation.ReflTransGen.tail h hd

theorem reaches_iff {c d : C} :
    Reaches parents c d ↔ d = c ∨ ∃ p ∈ parents c, Reaches parents p d := by
  unfold Reaches
  rw [Relation.ReflTransGen.cases_head_iff]
  constructor
  · rintro (rfl | ⟨p, hp, h⟩)
    exacts [.inl rfl, .inr ⟨p, hp, h⟩]
  · rintro (rfl | ⟨p, hp, h⟩)
    exacts [.inl rfl, .inr ⟨p, hp, h⟩]

/- A parentless commit reaches only itself. -/
theorem reaches_of_root {c d : C} (root : parents c = []) (h : Reaches parents c d) : d = c := by
  rcases reaches_iff.mp h with rfl | ⟨p, hp, _⟩
  · rfl
  · rw [root] at hp
    cases hp

/- In a finite acyclic graph the parent relation is well founded. -/
theorem Acyclic.wellFounded [Finite C] (dag : Acyclic parents) :
    WellFounded fun p c => p ∈ parents c := by
  -- the ancestor order: transitive, and irreflexive as there is no cycle
  let below := fun p c => Relation.TransGen (fun c p => p ∈ parents c) c p
  have : IsTrans C below := ⟨fun _ _ _ h₁ h₂ => h₂.trans h₁⟩
  have : Std.Irrefl below := ⟨dag⟩
  have wf : WellFounded below := Finite.wellFounded_of_trans_of_irrefl below
  exact Subrelation.wf (fun h => Relation.TransGen.single h) wf

/- Every commit of a finite acyclic graph reaches a parentless one. -/
theorem Acyclic.exists_root [Finite C] (dag : Acyclic parents) (c : C) :
    ∃ r, parents r = [] ∧ Reaches parents c r := by
  induction c using dag.wellFounded.induction with
  | _ c ih =>
    cases hc : parents c with
    | nil => exact ⟨c, hc, .refl c⟩
    | cons p ps =>
      have hp : p ∈ parents c := by rw [hc]; exact List.mem_cons_self
      obtain ⟨r, root, reach⟩ := ih p hp
      exact ⟨r, root, .parent hp reach⟩

/-! ### A rank that falls along every parent edge

The sequence numbers of josh's history-graph cache are such a rank: a commit's number exceeds
each of its parents'. -/

section Rank

variable {rank : C → Nat} (falls : ∀ c p, p ∈ parents c → rank p < rank c)
include falls

theorem Reaches.rank_le {c d : C} (h : Reaches parents c d) : rank d ≤ rank c := by
  induction h with
  | refl => exact le_rfl
  | tail _ edge ih => exact le_of_lt (lt_of_lt_of_le (falls _ _ edge) ih)

/- An ancestor other than the commit itself ranks strictly lower. -/
theorem Reaches.rank_lt {c d : C} (h : Reaches parents c d) (ne : d ≠ c) : rank d < rank c := by
  rcases reaches_iff.mp h with rfl | ⟨p, hp, rest⟩
  · exact absurd rfl ne
  · exact lt_of_le_of_lt (rest.rank_le falls) (falls c p hp)

theorem Reaches.antisymm {c d : C} (h₁ : Reaches parents c d) (h₂ : Reaches parents d c) :
    c = d := by
  by_contra ne
  exact absurd (h₁.rank_le falls) (not_le.mpr (h₂.rank_lt falls ne))

end Rank

end Dag

end Josh
