import Josh.Opt.PrefixSort
import Mathlib

/-! What `prefix_sort` returns: a permutation of the compose members in which each member comes
after every earlier member whose source or destination path overlaps its own. The edges come
forward only (from a member to later ones), so the heap of `topo_sort_with_tiebreak` never runs
dry before every member is out: the least member not yet out has all its predecessors out. -/

namespace Josh

/-! ### The heap -/

theorem popLeast_eq_none {key : Nat → Path × Path} {heap : List Nat} :
    popLeast key heap = none ↔ heap = [] := by
  cases heap with
  | nil => simp [popLeast]
  | cons x xs =>
    refine ⟨fun h => ?_, fun h => nomatch h⟩
    simp only [popLeast] at h
    cases hp : popLeast key xs with
    | none => simp [hp] at h
    | some p =>
      simp only [hp] at h
      split at h <;> simp at h

theorem popLeast_perm {key : Nat → Path × Path} :
    ∀ {heap : List Nat} {i : Nat} {rest : List Nat},
      popLeast key heap = some (i, rest) → heap.Perm (i :: rest)
  | [], _, _, h => by simp [popLeast] at h
  | x :: xs, i, rest, h => by
    simp only [popLeast] at h
    cases hp : popLeast key xs with
    | none =>
      obtain rfl := popLeast_eq_none.mp hp
      simp only [hp, Option.some.injEq, Prod.mk.injEq] at h
      obtain ⟨rfl, rfl⟩ := h
      rfl
    | some p =>
      obtain ⟨j, others⟩ := p
      have tail := popLeast_perm hp
      simp only [hp] at h
      split at h
      · obtain ⟨rfl, rfl⟩ := Prod.mk.inj (Option.some.inj h)
        exact (tail.cons x).trans (List.Perm.swap _ _ _)
      · obtain ⟨rfl, rfl⟩ := Prod.mk.inj (Option.some.inj h)
        rfl

/-! ### Releasing the members after a popped one -/

theorem getD_set_of_lt {l : List Nat} {j : Nat} (hj : j < l.length) (d v : Nat) :
    (l.set j d).getD v 0 = if v = j then d else l.getD v 0 := by
  simp only [List.getD_eq_getElem?_getD, List.getElem?_set]
  by_cases hv : v = j
  · simp [hv, hj]
  · simp [Ne.symm hv, hv]

/-- The state of the release loop after the members `p` of the popped member's edges: each
lost one incoming edge per occurrence, and those that reached none were pushed once. -/
def ReleaseInv (deg₀ heap₀ p deg heap : List Nat) : Prop :=
  deg.length = deg₀.length ∧ (∀ v, deg.getD v 0 = deg₀.getD v 0 - p.count v) ∧ heap.Nodup ∧
    ∀ v, v ∈ heap ↔ v ∈ heap₀ ∨ (v ∈ p ∧ deg₀.getD v 0 = p.count v)

theorem ReleaseInv.release {deg₀ heap₀ p deg heap : List Nat} {j : Nat}
    (inv : ReleaseInv deg₀ heap₀ p deg heap) (hj : j < deg₀.length)
    (enough : (p ++ [j]).count j ≤ deg₀.getD j 0) (zero : ∀ v ∈ heap₀, deg₀.getD v 0 = 0) :
    ReleaseInv deg₀ heap₀ (p ++ [j]) (release deg heap j).1 (release deg heap j).2 := by
  obtain ⟨len, hdeg, nodup, mem⟩ := inv
  have count_j : (p ++ [j]).count j = p.count j + 1 := by simp
  have count_ne : ∀ v, v ≠ j → (p ++ [j]).count v = p.count v := fun v hv => by
    simp [List.count_append, Ne.symm hv]
  -- `j` was not pushed yet: it still has this incoming edge left
  have fresh : j ∉ heap := fun hmem => by
    rcases (mem j).mp hmem with h | ⟨-, h⟩
    · have := zero j h
      omega
    · omega
  have hd : deg.getD j 0 - 1 = deg₀.getD j 0 - (p ++ [j]).count j := by
    rw [hdeg j, count_j]
    omega
  have others : ∀ v, v ≠ j → (v ∈ p ++ [j] ↔ v ∈ p) := fun v hv => by simp [hv]
  refine ⟨by simp [Josh.release, len], fun v => ?_, ?_, fun v => ?_⟩
  · rw [Josh.release, getD_set_of_lt (len ▸ hj)]
    by_cases hv : v = j
    · subst hv
      rw [if_pos rfl, hd]
    · rw [if_neg hv, hdeg v, count_ne v hv]
  -- whether `j` is pushed now: exactly when this was its last incoming edge
  · by_cases hz : deg.getD j 0 - 1 = 0
    · simp only [Josh.release, hz, if_true]
      refine List.nodup_append.mpr ⟨nodup, List.nodup_singleton j, fun a ha b hb same => ?_⟩
      rw [List.mem_singleton.mp hb] at same
      exact fresh (same ▸ ha)
    · simpa only [Josh.release, hz, if_false] using nodup
  · by_cases hz : deg.getD j 0 - 1 = 0
    · simp only [Josh.release, hz, if_true]
      by_cases hv : v = j
      · subst hv
        simp only [List.mem_append, List.mem_singleton, or_true, true_iff]
        exact .inr ⟨by simp, by omega⟩
      · rw [List.mem_append, List.mem_singleton, others v hv, count_ne v hv, mem v]
        simp [hv]
    · simp only [Josh.release, hz, if_false]
      by_cases hv : v = j
      · subst hv
        refine iff_of_false fresh fun h => ?_
        rcases h with h | ⟨-, h⟩
        · have := zero v h
          omega
        · omega
      · rw [others v hv, count_ne v hv, mem v]

theorem ReleaseInv.foldl {deg₀ heap₀ : List Nat} (l : List Nat) (bound : ∀ j ∈ l, j < deg₀.length)
    (enough : ∀ v, l.count v ≤ deg₀.getD v 0) (zero : ∀ v ∈ heap₀, deg₀.getD v 0 = 0) :
    ∀ (s p deg heap : List Nat), l = p ++ s → ReleaseInv deg₀ heap₀ p deg heap →
      ReleaseInv deg₀ heap₀ l (s.foldl (fun s j => Josh.release s.1 s.2 j) (deg, heap)).1
        (s.foldl (fun s j => Josh.release s.1 s.2 j) (deg, heap)).2
  | [], p, deg, heap, hl, inv => by simpa [hl] using inv
  | j :: s, p, deg, heap, hl, inv => by
    have hj : j ∈ l := by simp [hl]
    have step := inv.release (bound j hj)
      (le_trans (List.Sublist.count_le _ (by simp [hl])) (enough j)) zero
    exact ReleaseInv.foldl l bound enough zero s (p ++ [j]) _ _ (by simp [hl]) step

/-! ### The loop -/

/-- Every edge goes from a member to a later one. -/
def Forward (outgoing : List (List Nat)) (n : Nat) : Prop :=
  ∀ u x, x ∈ outgoing.getD u [] → u < x ∧ x < n

/-- The incoming edges of `v` from the members not out yet. -/
def pending (outgoing : List (List Nat)) (n : Nat) (result : List Nat) (v : Nat) : Nat :=
  ∑ u ∈ (Finset.range n).filter (· ∉ result), (outgoing.getD u []).count v

theorem sum_map_eq_sum_range {α : Type*} (f : α → Nat) (d : α) :
    ∀ l : List α, (l.map f).sum = ∑ u ∈ Finset.range l.length, f (l.getD u d)
  | [] => by simp
  | a :: l => by
    rw [List.map_cons, List.sum_cons, sum_map_eq_sum_range f d l, List.length_cons,
      Finset.sum_range_succ', add_comm]
    rfl

section Kahn

variable {outgoing : List (List Nat)} {n : Nat}

theorem pending_eq_zero_iff {result : List Nat} {v : Nat} :
    pending outgoing n result v = 0 ↔ ∀ u < n, u ∉ result → v ∉ outgoing.getD u [] := by
  simp [pending, Finset.sum_eq_zero_iff, List.count_eq_zero]

theorem pending_snoc {result : List Nat} {i : Nat} (hi : i < n) (hr : i ∉ result) (v : Nat) :
    pending outgoing n (result ++ [i]) v + (outgoing.getD i []).count v =
      pending outgoing n result v := by
  have out : (Finset.range n).filter (· ∉ result ++ [i]) =
      ((Finset.range n).filter (· ∉ result)).erase i := by
    ext u
    simp only [Finset.mem_filter, Finset.mem_range, List.mem_append, List.mem_singleton, not_or,
      Finset.mem_erase]
    tauto
  have mem : i ∈ (Finset.range n).filter (· ∉ result) := by simp [hi, hr]
  rw [pending, pending, out, add_comm]
  exact Finset.add_sum_erase _ (fun u => (outgoing.getD u []).count v) mem

/-- The state of `topo_sort_with_tiebreak` between two pops: the indegrees count the edges from
the members not out yet, the heap holds the members with none left, and each member out came
after all its predecessors. -/
structure KahnInv (outgoing : List (List Nat)) (n : Nat) (indegree heap result : List Nat) :
    Prop where
  length : indegree.length = n
  inflow : ∀ v < n, indegree.getD v 0 = pending outgoing n result v
  bounded : ∀ v ∈ result, v < n
  nodup : result.Nodup
  heapNodup : heap.Nodup
  memHeap : ∀ v, v ∈ heap ↔ v < n ∧ v ∉ result ∧ indegree.getD v 0 = 0
  closed : ∀ l₁ v l₂, result = l₁ ++ v :: l₂ → ∀ u, v ∈ outgoing.getD u [] → u ∈ l₁

theorem KahnInv.length_le {deg heap result : List Nat} (inv : KahnInv outgoing n deg heap result) :
    result.length ≤ n := by
  simpa using (inv.nodup.subperm fun v hv => List.mem_range.mpr (inv.bounded v hv)).length_le

theorem KahnInv.pop (fwd : Forward outgoing n) {key : Nat → Path × Path}
    {deg heap result rest : List Nat} {i : Nat} (inv : KahnInv outgoing n deg heap result)
    (h : popLeast key heap = some (i, rest)) :
    KahnInv outgoing n
      ((outgoing.getD i []).foldl (fun s j => release s.1 s.2 j) (deg, rest)).1
      ((outgoing.getD i []).foldl (fun s j => release s.1 s.2 j) (deg, rest)).2
      (result ++ [i]) := by
  have perm := popLeast_perm h
  have heapNodup := perm.nodup_iff.mp inv.heapNodup
  obtain ⟨hin, hir, -⟩ := (inv.memHeap i).mp (perm.mem_iff.mpr List.mem_cons_self)
  have memRest : ∀ v, v ∈ rest ↔ v ∈ heap ∧ v ≠ i := fun v => by
    rw [perm.mem_iff, List.mem_cons]
    constructor
    · intro hv
      exact ⟨.inr hv, fun same => (List.nodup_cons.mp heapNodup).1 (same ▸ hv)⟩
    · rintro ⟨hv | hv, hne⟩
      · exact absurd hv hne
      · exact hv
  -- each edge of `i` still counts in the indegree of its target
  have enough : ∀ v, (outgoing.getD i []).count v ≤ deg.getD v 0 := fun v => by
    by_cases hv : v < n
    · have := @pending_snoc outgoing n result i hin hir v
      rw [inv.inflow v hv]
      omega
    · rw [List.count_eq_zero.mpr fun hm => hv (fwd i v hm).2]
      omega
  -- a target of `i` is later than `i`, and not out: its predecessor `i` is not
  have target : ∀ v ∈ outgoing.getD i [], v < n ∧ v ≠ i ∧ v ∉ result := fun v hm => by
    refine ⟨(fwd i v hm).2, fun same => by have := (fwd i v hm).1; omega, fun hr => hir ?_⟩
    obtain ⟨l₁, l₂, rfl⟩ := List.append_of_mem hr
    exact List.mem_append_left _ (inv.closed l₁ v l₂ rfl i hm)
  obtain ⟨len, hdeg, nodup, mem⟩ := ReleaseInv.foldl (outgoing.getD i [])
    (fun j hj => inv.length ▸ (fwd i j hj).2) enough
    (fun v hv => ((inv.memHeap v).mp ((memRest v).mp hv).1).2.2) (outgoing.getD i []) [] deg rest rfl
    ⟨rfl, fun v => by simp, (List.nodup_cons.mp heapNodup).2, fun v => by simp⟩
  refine ⟨len.trans inv.length, fun v hv => ?_, fun v hv => ?_, ?_, nodup, fun v => ?_,
    fun l₁ v l₂ hl u hu => ?_⟩
  · have := @pending_snoc outgoing n result i hin hir v
    rw [hdeg v, inv.inflow v hv]
    omega
  · rcases List.mem_append.mp hv with hv | hv
    · exact inv.bounded v hv
    · rw [List.mem_singleton.mp hv]
      exact hin
  · refine List.nodup_append.mpr ⟨inv.nodup, List.nodup_singleton i, fun a ha b hb same => ?_⟩
    rw [List.mem_singleton.mp hb] at same
    exact hir (same ▸ ha)
  · rw [mem v, hdeg v, memRest v, inv.memHeap v]
    simp only [List.mem_append, List.mem_singleton, not_or]
    constructor
    · rintro (⟨⟨hv, hr, hz⟩, hne⟩ | ⟨hm, heq⟩)
      · exact ⟨hv, ⟨hr, hne⟩, by omega⟩
      · obtain ⟨hv, hne, hr⟩ := target v hm
        exact ⟨hv, ⟨hr, hne⟩, by omega⟩
    · rintro ⟨hv, ⟨hr, hne⟩, hz⟩
      by_cases hc : (outgoing.getD i []).count v = 0
      · exact .inl ⟨⟨hv, hr, by omega⟩, hne⟩
      · have := enough v
        exact .inr ⟨List.count_pos_iff.mp (Nat.pos_of_ne_zero hc), by omega⟩
  · rcases List.eq_nil_or_concat l₂ with rfl | ⟨l₂', z, rfl⟩
    · -- `i` itself: its indegree was zero, so every predecessor was out
      obtain ⟨rfl, same⟩ := List.append_inj' hl rfl
      obtain rfl : i = v := by simpa using same
      have hz := ((inv.memHeap i).mp (perm.mem_iff.mpr List.mem_cons_self)).2.2
      rw [inv.inflow i hin, pending_eq_zero_iff] at hz
      by_contra hu'
      exact hz u (by have := (fwd u i hu).1; omega) hu' hu
    · obtain ⟨hl, -⟩ := List.append_inj' (by simpa using hl : result ++ [i] = (l₁ ++ v :: l₂') ++ [z])
        rfl
      exact inv.closed l₁ v l₂' hl u hu

/-- The least member not out yet has no predecessor left: the heap is empty only once every
member is out. -/
theorem KahnInv.heap_ne_nil (fwd : Forward outgoing n) {deg heap result : List Nat}
    (inv : KahnInv outgoing n deg heap result) (short : result.length < n) : heap ≠ [] := by
  have exists_out : ∃ v, v < n ∧ v ∉ result := by
    by_contra hall
    simp only [not_exists, not_and, not_not] at hall
    have := (List.nodup_range.subperm fun v hv => hall v (List.mem_range.mp hv)).length_le
    simp only [List.length_range] at this
    omega
  classical
  have hv := Nat.find_spec exists_out
  have least : ∀ u < Nat.find exists_out, u < n → u ∈ result := fun u hu hun => by
    have := Nat.find_min exists_out hu
    simp only [not_and, not_not] at this
    exact this hun
  have zero : deg.getD (Nat.find exists_out) 0 = 0 := by
    rw [inv.inflow _ hv.1, pending_eq_zero_iff]
    intro u hun hur hm
    exact hur (least u (fwd u _ hm).1 hun)
  intro empty
  have := (inv.memHeap _).mpr ⟨hv.1, hv.2, zero⟩
  simp [empty] at this

theorem topoSortLoop_spec (fwd : Forward outgoing n) (key : Nat → Path × Path) :
    ∀ rounds deg heap result, KahnInv outgoing n deg heap result → n ≤ result.length + rounds →
      ∃ deg' heap', KahnInv outgoing n deg' heap' (topoSortLoop outgoing key rounds deg heap result) ∧
        (topoSortLoop outgoing key rounds deg heap result).length = n
  | 0, deg, heap, result, inv, enough => ⟨deg, heap, inv, le_antisymm inv.length_le enough⟩
  | rounds + 1, deg, heap, result, inv, enough => by
    cases h : popLeast key heap with
    | none =>
      have : ¬ result.length < n := fun short => inv.heap_ne_nil fwd short (popLeast_eq_none.mp h)
      have := inv.length_le
      simp only [topoSortLoop, h]
      exact ⟨deg, heap, inv, by omega⟩
    | some p =>
      obtain ⟨i, rest⟩ := p
      have next := inv.pop fwd h
      rcases hfold : (outgoing.getD i []).foldl (fun s j => release s.1 s.2 j) (deg, rest) with
        ⟨deg', heap'⟩
      rw [hfold] at next
      simp only [topoSortLoop, h, hfold]
      exact topoSortLoop_spec fwd key rounds _ _ _ next (by simp; omega)

theorem kahnInv_init (len : outgoing.length = n) :
    KahnInv outgoing n ((List.range n).map fun j => (outgoing.map (·.count j)).sum)
      ((List.range n).filter fun i =>
        ((List.range n).map fun j => (outgoing.map (·.count j)).sum).getD i 0 = 0) [] := by
  have deg : ∀ v < n, ((List.range n).map fun j => (outgoing.map (·.count j)).sum).getD v 0 =
      pending outgoing n [] v := fun v hv => by
    rw [List.getD_eq_getElem?_getD, List.getElem?_map, List.getElem?_range hv, Option.map_some,
      Option.getD_some, pending, sum_map_eq_sum_range _ [] outgoing, len]
    simp
  refine ⟨by simp, deg, by simp, List.nodup_nil, List.nodup_range.filter _, fun v => ?_,
    fun l₁ v l₂ h => by simp at h⟩
  simp only [List.mem_filter, List.mem_range, decide_eq_true_eq, List.not_mem_nil,
    not_false_eq_true, true_and]

/-- Run from the start, the loop outputs every node once, each after all its predecessors,
whatever key breaks its ties. -/
theorem topoSortLoop_order (fwd : Forward outgoing n) (len : outgoing.length = n)
    (key : Nat → Path × Path) (fs : List Op) :
    ∃ order : List Nat, order.Perm (List.range n) ∧
      (∀ l₁ v l₂, order = l₁ ++ v :: l₂ → ∀ u, v ∈ outgoing.getD u [] → u ∈ l₁) ∧
      (topoSortLoop outgoing key n ((List.range n).map fun j => (outgoing.map (·.count j)).sum)
        ((List.range n).filter fun i =>
          ((List.range n).map fun j => (outgoing.map (·.count j)).sum).getD i 0 = 0)
        []).filterMap (fs[·]?) = order.filterMap (fs[·]?) := by
  obtain ⟨deg, heap, inv, hlen⟩ := topoSortLoop_spec fwd key n _ _ [] (kahnInv_init len) (by simp)
  have sub := inv.nodup.subperm fun v hv => List.mem_range.mpr (inv.bounded v hv)
  exact ⟨_, sub.perm_of_length_le (by rw [List.length_range, hlen]), inv.closed, rfl⟩

/-- `topo_sort_with_tiebreak` over forward edges outputs every member once, each after all its
predecessors. -/
theorem topoSortWithTiebreak_spec (fs : List Op) (fwd : Forward outgoing fs.length)
    (len : outgoing.length = fs.length) :
    ∃ order : List Nat, order.Perm (List.range fs.length) ∧
      (∀ l₁ v l₂, order = l₁ ++ v :: l₂ → ∀ u, v ∈ outgoing.getD u [] → u ∈ l₁) ∧
      topoSortWithTiebreak outgoing fs = order.filterMap (fs[·]?) := by
  unfold topoSortWithTiebreak
  exact topoSortLoop_order fwd len _ fs

end Kahn

/-! ### The edges -/

theorem length_pushOutgoing (o : List (List Nat)) (j i : Nat) :
    (pushOutgoing o j i).length = o.length := by
  simp [pushOutgoing]

theorem mem_pushOutgoing {o : List (List Nat)} {j : Nat} (hj : j < o.length) (i u x : Nat) :
    x ∈ (pushOutgoing o j i).getD u [] ↔ x ∈ o.getD u [] ∨ (u = j ∧ x = i) := by
  simp only [pushOutgoing, List.getD_eq_getElem?_getD, List.getElem?_modify]
  by_cases hu : j = u
  · subst hu
    rw [List.getElem?_eq_getElem hj]
    simp only [Option.map_eq_map, Option.map_some, if_true, Option.getD_some, true_and]
    split
    · -- the edge is there already: `i` is the last target
      rename_i last
      exact ⟨.inl, fun h => h.elim id fun same => same ▸ List.mem_of_getLast? last⟩
    · simp
  · simp [hu, Ne.symm hu]

theorem length_foldl_pushOutgoing (i : Nat) :
    ∀ (js : List Nat) (o : List (List Nat)),
      (js.foldl (fun o j => pushOutgoing o j i) o).length = o.length
  | [], _ => rfl
  | j :: js, o => by
    rw [List.foldl_cons, length_foldl_pushOutgoing i js, length_pushOutgoing]

theorem mem_foldl_pushOutgoing (i : Nat) :
    ∀ (js : List Nat) (o : List (List Nat)), (∀ j ∈ js, j < o.length) → ∀ u x,
      x ∈ (js.foldl (fun o j => pushOutgoing o j i) o).getD u [] ↔
        x ∈ o.getD u [] ∨ (u ∈ js ∧ x = i)
  | [], o, _, u, x => by simp
  | j :: js, o, bound, u, x => by
    have bound' : ∀ j' ∈ js, j' < (pushOutgoing o j i).length := fun j' hj' =>
      (length_pushOutgoing o j i).symm ▸ bound j' (List.mem_cons_of_mem _ hj')
    rw [List.foldl_cons, mem_foldl_pushOutgoing i js _ bound' u x,
      mem_pushOutgoing (bound j List.mem_cons_self), List.mem_cons]
    tauto

theorem mem_findOverlapping {t : PathTrie} {path : Path} {j : Nat} :
    j ∈ t.findOverlapping path ↔ ∃ p, (p, j) ∈ t.entries ∧ Overlaps p path := by
  simp [PathTrie.findOverlapping]

/-- The state of the edge loop of `prefix_sort` after its first `k` members: the tries hold
their paths, every edge goes forward among them, and each overlapping pair of them has its
edge. -/
structure EdgeInv (fs : List Op) (k : Nat) (s : List (List Nat) × PathTrie × PathTrie) :
    Prop where
  length : s.1.length = fs.length
  srcEntries : ∀ p j, (p, j) ∈ s.2.1.entries ↔ j < k ∧ ∃ f, fs[j]? = some f ∧ p = srcPath f
  dstEntries : ∀ p j, (p, j) ∈ s.2.2.entries ↔ j < k ∧ ∃ f, fs[j]? = some f ∧ p = dstPath f
  forward : ∀ u x, x ∈ s.1.getD u [] → u < x ∧ x < k
  covers : ∀ u v f g, u < v → v < k → fs[u]? = some f → fs[v]? = some g →
    Overlaps (srcPath f) (srcPath g) ∨ Overlaps (dstPath f) (dstPath g) → v ∈ s.1.getD u []

theorem EdgeInv.step {fs : List Op} {k : Nat} {s : List (List Nat) × PathTrie × PathTrie}
    {f : Op} (inv : EdgeInv fs k s) (hk : fs[k]? = some f) :
    EdgeInv fs (k + 1) (prefixSortEdge s (f, k)) := by
  obtain ⟨outgoing, srcTrie, dstTrie⟩ := s
  have hkn : k < fs.length := (List.getElem?_eq_some_iff.mp hk).1
  -- the members the tries find are earlier ones, whose paths overlap
  have found : ∀ (trie : PathTrie) (path : Op → Path) (j : Nat),
      (∀ p j, (p, j) ∈ trie.entries ↔ j < k ∧ ∃ f, fs[j]? = some f ∧ p = path f) →
      (j ∈ trie.findOverlapping (path f) ↔
        j < k ∧ ∃ f', fs[j]? = some f' ∧ Overlaps (path f') (path f)) := by
    intro trie path j entries
    rw [mem_findOverlapping]
    constructor
    · rintro ⟨p, hp, overlap⟩
      obtain ⟨hj, f', hf', rfl⟩ := (entries p j).mp hp
      exact ⟨hj, f', hf', overlap⟩
    · rintro ⟨hj, f', hf', overlap⟩
      exact ⟨path f', (entries _ j).mpr ⟨hj, f', hf', rfl⟩, overlap⟩
  have srcFound := fun j => found srcTrie srcPath j inv.srcEntries
  have dstFound := fun j => found dstTrie dstPath j inv.dstEntries
  have bound₁ : ∀ j ∈ srcTrie.findOverlapping (srcPath f), j < outgoing.length := fun j hj => by
    have := ((srcFound j).mp hj).1
    have := inv.length
    simp only at this
    omega
  have bound₂ : ∀ j ∈ dstTrie.findOverlapping (dstPath f),
      j < ((srcTrie.findOverlapping (srcPath f)).foldl (fun o j => pushOutgoing o j k)
        outgoing).length := fun j hj => by
    have := ((dstFound j).mp hj).1
    have := inv.length
    simp only at this
    rw [length_foldl_pushOutgoing]
    omega
  have mem : ∀ u x, x ∈ ((dstTrie.findOverlapping (dstPath f)).foldl
      (fun o j => pushOutgoing o j k) ((srcTrie.findOverlapping (srcPath f)).foldl
        (fun o j => pushOutgoing o j k) outgoing)).getD u [] ↔
      x ∈ outgoing.getD u [] ∨ (u ∈ srcTrie.findOverlapping (srcPath f) ∧ x = k) ∨
        (u ∈ dstTrie.findOverlapping (dstPath f) ∧ x = k) := fun u x => by
    rw [mem_foldl_pushOutgoing k _ _ bound₂, mem_foldl_pushOutgoing k _ _ bound₁]
    tauto
  simp only [prefixSortEdge]
  refine ⟨?_, fun p j => ?_, fun p j => ?_, fun u x hx => ?_, fun u v f' g huv hv hu hg overlap => ?_⟩
  · rw [length_foldl_pushOutgoing, length_foldl_pushOutgoing]
    exact inv.length
  · simp only [PathTrie.insert, List.mem_append, List.mem_singleton, Prod.mk.injEq, inv.srcEntries]
    constructor
    · rintro (⟨hj, g, hg, rfl⟩ | ⟨rfl, rfl⟩)
      · exact ⟨by omega, g, hg, rfl⟩
      · exact ⟨by omega, f, hk, rfl⟩
    · rintro ⟨hj, g, hg, rfl⟩
      by_cases hjk : j < k
      · exact .inl ⟨hjk, g, hg, rfl⟩
      · obtain rfl : j = k := by omega
        rw [hk] at hg
        obtain rfl := Option.some.inj hg
        exact .inr ⟨rfl, rfl⟩
  · simp only [PathTrie.insert, List.mem_append, List.mem_singleton, Prod.mk.injEq, inv.dstEntries]
    constructor
    · rintro (⟨hj, g, hg, rfl⟩ | ⟨rfl, rfl⟩)
      · exact ⟨by omega, g, hg, rfl⟩
      · exact ⟨by omega, f, hk, rfl⟩
    · rintro ⟨hj, g, hg, rfl⟩
      by_cases hjk : j < k
      · exact .inl ⟨hjk, g, hg, rfl⟩
      · obtain rfl : j = k := by omega
        rw [hk] at hg
        obtain rfl := Option.some.inj hg
        exact .inr ⟨rfl, rfl⟩
  · rcases (mem u x).mp hx with old | ⟨hu, rfl⟩ | ⟨hu, rfl⟩
    · have := inv.forward u x old
      exact ⟨this.1, by omega⟩
    · exact ⟨((srcFound u).mp hu).1, by omega⟩
    · exact ⟨((dstFound u).mp hu).1, by omega⟩
  · rw [mem]
    by_cases hvk : v < k
    · exact .inl (inv.covers u v f' g huv hvk hu hg overlap)
    · obtain rfl : v = k := by omega
      rw [hk] at hg
      obtain rfl := Option.some.inj hg
      rcases overlap with overlap | overlap
      · exact .inr (.inl ⟨(srcFound u).mpr ⟨huv, f', hu, overlap⟩, rfl⟩)
      · exact .inr (.inr ⟨(dstFound u).mpr ⟨huv, f', hu, overlap⟩, rfl⟩)

/-- The edge loop overlap a prefix of the members. -/
theorem edgeInv_foldl (fs : List Op) : ∀ l : List Op, l <+: fs →
    EdgeInv fs l.length
      (l.zipIdx.foldl prefixSortEdge (List.replicate fs.length [], ⟨[]⟩, ⟨[]⟩)) := by
  intro l
  induction l using List.reverseRecOn with
  | nil =>
    intro _
    refine ⟨by simp, fun p j => by simp, fun p j => by simp, fun u x hx => ?_,
      fun u v f g _ hv => absurd hv (Nat.not_lt_zero v)⟩
    simp only [List.zipIdx_nil, List.foldl_nil, List.getD_eq_getElem?_getD,
      List.getElem?_replicate] at hx
    split at hx <;> simp at hx
  | append_singleton l f ih =>
    intro hp
    have hf : fs[l.length]? = some f := by
      obtain ⟨t, rfl⟩ := hp
      simp
    rw [List.zipIdx_append, List.foldl_append, List.length_append, List.length_singleton]
    simp only [List.zipIdx_cons, List.zipIdx_nil, Nat.zero_add, List.foldl_cons, List.foldl_nil]
    exact (ih ((List.prefix_append l [f]).trans hp)).step (by simpa using hf)

theorem edgeInv_prefixSortEdges (fs : List Op) :
    EdgeInv fs fs.length ((fs.zipIdx.foldl prefixSortEdge
      (List.replicate fs.length [], ⟨[]⟩, ⟨[]⟩))) :=
  edgeInv_foldl fs fs (List.prefix_refl fs)

theorem filterMap_range_getElem? {α : Type*} (l : List α) :
    (List.range l.length).filterMap (l[·]?) = l := by
  induction l using List.reverseRecOn with
  | nil => rfl
  | append_singleton l a ih =>
    rw [List.length_append, List.length_singleton, List.range_succ, List.filterMap_append]
    have front : (List.range l.length).filterMap (fun i => (l ++ [a])[i]?) =
        (List.range l.length).filterMap (l[·]?) :=
      List.filterMap_congr fun i hi => List.getElem?_append_left (List.mem_range.mp hi)
    rw [front, ih]
    simp

/-- `prefix_sort` returns its members permuted, and keeps every member after each earlier one
whose source or destination path overlaps its own. -/
theorem prefix_sort_keeps_overlapping_order (fs : List Op) :
    ∃ order : List Nat, order.Perm (List.range fs.length) ∧
      prefixSort fs = order.filterMap (fs[·]?) ∧ (prefixSort fs).Perm fs ∧
      ∀ i j (lt : i < j) (hj : j < fs.length),
        Overlaps (srcPath fs[i]) (srcPath fs[j]) ∨ Overlaps (dstPath fs[i]) (dstPath fs[j]) →
          List.Sublist [i, j] order := by
  by_cases small : fs.length ≤ 1
  · refine ⟨List.range fs.length, List.Perm.refl _, ?_, ?_, fun i j lt hj _ => by omega⟩
    · rw [prefixSort, if_pos small, filterMap_range_getElem?]
    · rw [prefixSort, if_pos small]
  · have inv := edgeInv_prefixSortEdges fs
    obtain ⟨order, perm, closed, sorted⟩ :=
      topoSortWithTiebreak_spec fs (fun u x hx => inv.forward u x hx) inv.length
    have result : prefixSort fs = order.filterMap (fs[·]?) := by
      rw [prefixSort, if_neg small, prefixSortEdges, sorted]
    refine ⟨order, perm, result, ?_, fun i j lt hj overlap => ?_⟩
    · have permuted := perm.filterMap (fs[·]?)
      rwa [filterMap_range_getElem?, ← result] at permuted
    -- the edge from `i` to `j` puts `i` before `j`
    have edge := inv.covers i j fs[i] fs[j] lt hj (List.getElem?_eq_getElem _)
      (List.getElem?_eq_getElem _) overlap
    obtain ⟨l₁, l₂, split⟩ := List.append_of_mem (perm.mem_iff.mpr (List.mem_range.mpr hj))
    have before := closed l₁ j l₂ split i edge
    rw [split]
    exact (List.singleton_sublist.mpr before).append ((List.nil_sublist l₂).cons_cons j)

end Josh
