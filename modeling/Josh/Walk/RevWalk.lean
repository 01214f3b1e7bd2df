import Mathlib

/-! `RevWalk` of `josh-gix-ext/src/revwalk.rs`: the iterative depth-first search over a commit
graph from a list of tips, with `Explore` and `Emit` frames, a commit marked visited when its
`Explore` frame pops, and pruned commits marked visited without being emitted or explored.
`into_topo_vec` reverses the postorder. Over a finite acyclic graph it returns each commit
reachable from the tips through unpruned commits once, children before parents. -/

namespace Josh

/-- A frame of the search's stack. -/
inductive Frame (C : Type*) where
  | explore (c : C)
  | emit (c : C)
  deriving DecidableEq

def Frame.node {C : Type*} : Frame C → C
  | .explore c => c
  | .emit c => c

/-- The search's state: its stack, top first, the visited commits and the postorder so far. -/
structure DfsState (C : Type*) where
  stack : List (Frame C)
  visited : List C
  post : List C

section RevWalk

variable {C : Type*} [DecidableEq C] (parents : C → List C) (firstParent : Bool)
  (prune : C → Bool)

/- The parents the walk follows from a commit: only the first when simplifying to first
parents. -/
def followed (c : C) : List C := if firstParent then (parents c).take 1 else parents c

/- One frame of `dfs`: an `Explore` of a visited commit is dropped, a pruned commit is only
marked, and any other is marked, its `Emit` pushed and its parents' `Explore`s above it, the
first parent on top. An `Emit` appends the commit to the postorder. -/
def dfsStep (s : DfsState C) : Option (DfsState C) :=
  match s.stack with
  | [] => none
  | .explore c :: stack =>
    if c ∈ s.visited then some ⟨stack, s.visited, s.post⟩
    else if prune c then some ⟨stack, c :: s.visited, s.post⟩
    else
      some ⟨(followed parents firstParent c).map .explore ++ .emit c :: stack, c :: s.visited,
        s.post⟩
  | .emit c :: stack => some ⟨stack, s.visited, s.post ++ [c]⟩

/- `dfs`: frames are popped until the stack is empty; the loop runs on fuel. -/
def dfs : Nat → DfsState C → Option (List C)
  | fuel, s =>
    match dfsStep parents firstParent prune s, fuel with
    | none, _ => some s.post
    | some _, 0 => none
    | some s', fuel + 1 => dfs fuel s'

/- `into_topo_vec`: the tips explored in push order, the postorder reversed. -/
def intoTopoVec (fuel : Nat) (tips : List C) : Option (List C) :=
  (dfs parents firstParent prune fuel ⟨tips.map .explore, [], []⟩).map List.reverse

/-! ### What the walk is meant to return -/

/- The commits reachable from the tips along followed parent edges without stepping on a
pruned commit. -/
inductive Reached (tips : List C) : C → Prop
  | tip {c : C} : c ∈ tips → prune c = false → Reached tips c
  | parent {c p : C} : Reached tips c → p ∈ followed parents firstParent c → prune p = false →
      Reached tips p

/- A graph without a cycle of parent edges. -/
def Acyclic : Prop := ∀ c, ¬ Relation.TransGen (fun c p => p ∈ parents c) c c

/- The edges the walk follows. -/
def Follows (c p : C) : Prop := p ∈ followed parents firstParent c

omit [DecidableEq C] in
theorem Acyclic.follows {parents : C → List C} (dag : Acyclic parents) (firstParent : Bool)
    (c : C) : ¬ Relation.TransGen (Follows parents firstParent) c c := by
  refine fun cycle => dag c (Relation.TransGen.mono (fun a b h => ?_) c c cycle)
  unfold Follows followed at h
  split_ifs at h
  · exact List.mem_of_mem_take h
  · exact h

end RevWalk

def Frame.emitted? {C : Type*} : Frame C → Option C
  | .emit c => some c
  | .explore _ => none

theorem Frame.emit_mem_iff {C : Type*} {c : C} {l : List (Frame C)} :
    .emit c ∈ l ↔ c ∈ l.filterMap Frame.emitted? := by
  rw [List.mem_filterMap]
  constructor
  · exact fun h => ⟨_, h, rfl⟩
  · rintro ⟨fr, hfr, h⟩
    cases fr with
    | emit d => cases h; exact hfr
    | explore d => cases h

/-! ### The frames above an `Emit` -/

section Above

variable {α : Type*} [DecidableEq α]

theorem takeWhile_ne_cons {a b : α} (hab : a ≠ b) (l : List α) :
    (a :: l).takeWhile (· ≠ b) = a :: l.takeWhile (· ≠ b) := by
  simp [hab]

/- Of two frames on a stack, one lies above the other. -/
theorem mem_takeWhile_ne_or {l : List α} {a b : α} (ha : a ∈ l) (hb : b ∈ l) (hab : a ≠ b) :
    a ∈ l.takeWhile (· ≠ b) ∨ b ∈ l.takeWhile (· ≠ a) := by
  induction l with
  | nil => cases ha
  | cons x l ih =>
    by_cases xa : x = a
    · subst xa
      exact .inl (by rw [takeWhile_ne_cons hab]; exact List.mem_cons_self)
    by_cases xb : x = b
    · subst xb
      exact .inr (by rw [takeWhile_ne_cons (Ne.symm hab)]; exact List.mem_cons_self)
    have ha' := (List.mem_cons.mp ha).resolve_left (Ne.symm xa)
    have hb' := (List.mem_cons.mp hb).resolve_left (Ne.symm xb)
    rcases ih ha' hb' with h | h
    · exact .inl (by rw [takeWhile_ne_cons xb]; exact List.mem_cons_of_mem x h)
    · exact .inr (by rw [takeWhile_ne_cons xa]; exact List.mem_cons_of_mem x h)

end Above

/-! ### The invariant of the search -/

section Invariant

variable {C : Type*} [DecidableEq C] {parents : C → List C} {firstParent : Bool}
  {prune : C → Bool} {tips : List C}

/- The frames above a commit's `Emit`: those pushed while it is explored. -/
def above (c : C) (stack : List (Frame C)) : List (Frame C) := stack.takeWhile (· ≠ .emit c)

theorem above_cons {c : C} {fr : Frame C} (h : fr ≠ .emit c) (stack : List (Frame C)) :
    above c (fr :: stack) = fr :: above c stack :=
  takeWhile_ne_cons h stack

theorem above_emit_self (c : C) (stack : List (Frame C)) : above c (.emit c :: stack) = [] :=
  List.takeWhile_cons_of_neg (by simp)

theorem above_explores_append (c : C) (ps : List C) (stack : List (Frame C)) :
    above c (ps.map .explore ++ stack) = ps.map .explore ++ above c stack :=
  List.takeWhile_append_of_pos (by simp)

/- The frames a first exploration pushes, as seen from the `Emit`s on the stack. -/
omit [DecidableEq C] in
theorem emit_mem_push {x c : C} {ps : List C} {stack : List (Frame C)} :
    .emit x ∈ ps.map .explore ++ .emit c :: stack ↔ x = c ∨ .emit x ∈ stack := by
  simp

omit [DecidableEq C] in
theorem explore_mem_push {x c : C} {ps : List C} {stack : List (Frame C)} :
    .explore x ∈ ps.map .explore ++ .emit c :: stack ↔ x ∈ ps ∨ .explore x ∈ stack := by
  simp

variable (prune) in
/- A commit the search is through with: visited, and pruned or emitted. -/
def DfsState.Done (s : DfsState C) (p : C) : Prop := p ∈ s.visited ∧ (prune p = true ∨ p ∈ s.post)

omit [DecidableEq C] in
theorem DfsState.Done.mono {s s' : DfsState C} {p : C} (h : s.Done prune p)
    (hv : s.visited ⊆ s'.visited) (hp : s.post ⊆ s'.post) : s'.Done prune p :=
  ⟨hv h.1, h.2.imp id fun h => hp h⟩

variable (parents firstParent prune tips) in
/- What holds of the search's state after every frame: the postorder is made of reached
commits in an order that puts parents first, the commits whose `Emit` is on the stack are
visited and reached, each on the way from those below it, with its parents done or explored
above it, and every visited commit is pruned, emitted, or waiting to be. -/
structure DfsInv (s : DfsState C) : Prop where
  postNodup : s.post.Nodup
  postReached : ∀ c ∈ s.post, Reached parents firstParent prune tips c ∧ c ∈ s.visited
  visitedNodup : s.visited.Nodup
  emitNodup : (s.stack.filterMap Frame.emitted?).Nodup
  gray : ∀ c, .emit c ∈ s.stack →
    c ∈ s.visited ∧ c ∉ s.post ∧ Reached parents firstParent prune tips c
  visitedDone : ∀ c ∈ s.visited, prune c = true ∨ c ∈ s.post ∨ .emit c ∈ s.stack
  explored : ∀ x, .explore x ∈ s.stack →
    x ∈ tips ∨ ∃ c, Reached parents firstParent prune tips c ∧ x ∈ followed parents firstParent c
  tipsSeen : ∀ t ∈ tips, t ∈ s.visited ∨ .explore t ∈ s.stack
  chain : ∀ c, .emit c ∈ s.stack → ∀ fr ∈ above c s.stack,
    Relation.TransGen (Follows parents firstParent) c fr.node
  grayParents : ∀ c, .emit c ∈ s.stack → ∀ p ∈ followed parents firstParent c,
    s.Done prune p ∨ .explore p ∈ above c s.stack ∨ .emit p ∈ above c s.stack
  blackParents : ∀ c ∈ s.post, ∀ p ∈ followed parents firstParent c,
    s.Done prune p ∧ (p ∈ s.post → [p, c].Sublist s.post)

theorem dfsInv_start : DfsInv parents firstParent prune tips ⟨tips.map .explore, [], []⟩ where
  postNodup := List.nodup_nil
  postReached _ h := by cases h
  visitedNodup := List.nodup_nil
  emitNodup := by simp [List.filterMap_map, Function.comp_def, Frame.emitted?]
  gray _ h := by simp at h
  visitedDone _ h := by cases h
  explored _ h := .inl (by simpa using h)
  tipsSeen _ h := .inr (List.mem_map_of_mem h)
  chain _ h := by simp at h
  grayParents _ h := by simp at h
  blackParents _ h := by cases h

omit [DecidableEq C] in
theorem Reached.not_pruned {c : C} (h : Reached parents firstParent prune tips c) :
    prune c = false := by
  cases h <;> assumption

/- A reached commit about to be explored, when it is not pruned. -/
theorem DfsInv.reached_of_explored {s : DfsState C} (inv : DfsInv parents firstParent prune tips s)
    {c : C} (hc : .explore c ∈ s.stack) (hp : prune c = false) :
    Reached parents firstParent prune tips c := by
  rcases inv.explored c hc with tip | ⟨d, hd, edge⟩
  · exact .tip tip hp
  · exact .parent hd edge hp

/- A commit whose `Emit` is on the stack is not done. -/
theorem DfsInv.not_done_of_gray {s : DfsState C} (inv : DfsInv parents firstParent prune tips s)
    {c : C} (hc : .emit c ∈ s.stack) : ¬ s.Done prune c := by
  obtain ⟨_, notPost, reached⟩ := inv.gray c hc
  rintro ⟨_, pruned | posted⟩
  · rw [reached.not_pruned] at pruned
    cases pruned
  · exact notPost posted

/- A gray parent of a gray commit, explored on top of the stack, has its `Emit` above the
commit's: were the commit above the parent's `Emit`, the edge back to the parent would close a
cycle. -/
theorem DfsInv.gray_parent_above (dag : Acyclic parents) {p x : C} {stack : List (Frame C)}
    {V P : List C} (inv : DfsInv parents firstParent prune tips ⟨.explore p :: stack, V, P⟩)
    (hx : .emit x ∈ stack) (hp : p ∈ followed parents firstParent x) (gp : .emit p ∈ stack) :
    .emit p ∈ above x stack := by
  by_cases same : p = x
  · subst same
    exact absurd (.single hp) (dag.follows firstParent p)
  rcases mem_takeWhile_ne_or gp hx (by simpa using same) with h | h
  · exact h
  · have down := inv.chain p (List.mem_cons_of_mem _ gp) (.emit x)
      (by rw [above_cons (by simp)]; exact List.mem_cons_of_mem _ h)
    exact absurd (down.tail hp) (dag.follows firstParent p)

/- An `Explore` of a visited commit is dropped. -/
theorem DfsInv.explore_visited (dag : Acyclic parents) {c : C} {stack : List (Frame C)}
    {V P : List C} (inv : DfsInv parents firstParent prune tips ⟨.explore c :: stack, V, P⟩)
    (seen : c ∈ V) : DfsInv parents firstParent prune tips ⟨stack, V, P⟩ where
  postNodup := inv.postNodup
  postReached := inv.postReached
  visitedNodup := inv.visitedNodup
  emitNodup := inv.emitNodup
  gray x hx := inv.gray x (List.mem_cons_of_mem _ hx)
  visitedDone x hx := (inv.visitedDone x hx).imp_right (Or.imp_right fun h => by simpa using h)
  explored x hx := inv.explored x (List.mem_cons_of_mem _ hx)
  tipsSeen t ht := by
    rcases inv.tipsSeen t ht with visited | h
    · exact .inl visited
    rcases List.mem_cons.mp h with h | h
    · cases h
      exact .inl seen
    · exact .inr h
  chain x hx fr hfr := inv.chain x (List.mem_cons_of_mem _ hx) fr
    (by rw [above_cons (by simp)]; exact List.mem_cons_of_mem _ hfr)
  grayParents x hx p hp := by
    rcases inv.grayParents x (List.mem_cons_of_mem _ hx) p hp with done | h | h
    · exact .inl done
    · rw [above_cons (by simp)] at h
      rcases List.mem_cons.mp h with h | h
      · -- the dropped frame was the parent's own: it is done, or gray above the commit
        cases h
        rcases inv.visitedDone c seen with pruned | posted | gray
        · exact .inl ⟨seen, .inl pruned⟩
        · exact .inl ⟨seen, .inr posted⟩
        · exact .inr (.inr (inv.gray_parent_above dag hx hp (by simpa using gray)))
      · exact .inr (.inl h)
    · rw [above_cons (by simp)] at h
      exact .inr (.inr (by simpa using h))
  blackParents := inv.blackParents

/- A pruned commit is only marked visited. -/
theorem DfsInv.explore_pruned {c : C} {stack : List (Frame C)} {V P : List C}
    (inv : DfsInv parents firstParent prune tips ⟨.explore c :: stack, V, P⟩)
    (fresh : c ∉ V) (pruned : prune c = true) :
    DfsInv parents firstParent prune tips ⟨stack, c :: V, P⟩ where
  postNodup := inv.postNodup
  postReached x hx := (inv.postReached x hx).imp_right (List.mem_cons_of_mem c)
  visitedNodup := List.nodup_cons.mpr ⟨fresh, inv.visitedNodup⟩
  emitNodup := inv.emitNodup
  gray x hx := (inv.gray x (List.mem_cons_of_mem _ hx)).imp (List.mem_cons_of_mem c) id
  visitedDone x hx := by
    rcases List.mem_cons.mp hx with rfl | hx
    · exact .inl pruned
    · exact (inv.visitedDone x hx).imp_right (Or.imp_right fun h => by simpa using h)
  explored x hx := inv.explored x (List.mem_cons_of_mem _ hx)
  tipsSeen t ht := by
    rcases inv.tipsSeen t ht with visited | h
    · exact .inl (List.mem_cons_of_mem c visited)
    rcases List.mem_cons.mp h with h | h
    · cases h
      exact .inl List.mem_cons_self
    · exact .inr h
  chain x hx fr hfr := inv.chain x (List.mem_cons_of_mem _ hx) fr
    (by rw [above_cons (by simp)]; exact List.mem_cons_of_mem _ hfr)
  grayParents x hx p hp := by
    rcases inv.grayParents x (List.mem_cons_of_mem _ hx) p hp with done | h | h
    · exact .inl (done.mono (List.subset_cons_self c V) (List.Subset.refl P))
    · rw [above_cons (by simp)] at h
      rcases List.mem_cons.mp h with h | h
      · cases h
        exact .inl ⟨List.mem_cons_self, .inl pruned⟩
      · exact .inr (.inl h)
    · rw [above_cons (by simp)] at h
      exact .inr (.inr (by simpa using h))
  blackParents x hx p hp := (inv.blackParents x hx p hp).imp_left fun done =>
    done.mono (List.subset_cons_self c V) (List.Subset.refl P)

/- A commit explored for the first time: its `Emit` goes under its parents' `Explore`s. -/
theorem DfsInv.explore_new {c : C} {stack : List (Frame C)} {V P : List C}
    (inv : DfsInv parents firstParent prune tips ⟨.explore c :: stack, V, P⟩)
    (fresh : c ∉ V) (kept : prune c = false) :
    DfsInv parents firstParent prune tips
      ⟨(followed parents firstParent c).map .explore ++ .emit c :: stack, c :: V, P⟩ := by
  have reached := inv.reached_of_explored List.mem_cons_self kept
  -- an `Emit` below the pushed frames is not the new commit's, which was not visited
  have older : ∀ x, .emit x ∈ stack → x ≠ c := fun x hx same =>
    fresh (same ▸ (inv.gray x (List.mem_cons_of_mem _ hx)).1)
  have aboveOlder : ∀ x, .emit x ∈ stack →
      above x ((followed parents firstParent c).map .explore ++ .emit c :: stack) =
        (followed parents firstParent c).map .explore ++ .emit c :: above x stack := by
    intro x hx
    rw [above_explores_append, above_cons (by simpa using (older x hx).symm)]
  have aboveNew : above c ((followed parents firstParent c).map .explore ++ .emit c :: stack) =
      (followed parents firstParent c).map .explore := by
    rw [above_explores_append, above_emit_self, List.append_nil]
  have grow : V ⊆ c :: V := List.subset_cons_self c V
  refine
    { postNodup := inv.postNodup
      postReached := fun x hx => (inv.postReached x hx).imp_right (List.mem_cons_of_mem c)
      visitedNodup := List.nodup_cons.mpr ⟨fresh, inv.visitedNodup⟩
      emitNodup := ?emitNodup
      gray := ?gray
      visitedDone := ?visitedDone
      explored := ?explored
      tipsSeen := ?tipsSeen
      chain := ?chain
      grayParents := ?grayParents
      blackParents := fun x hx p hp => (inv.blackParents x hx p hp).imp_left fun done =>
        done.mono grow (List.Subset.refl P) }
  case emitNodup =>
    have emits : ((followed parents firstParent c).map Frame.explore ++ .emit c :: stack).filterMap
        Frame.emitted? = c :: stack.filterMap Frame.emitted? := by
      simp [List.filterMap_append, List.filterMap_map, Function.comp_def, Frame.emitted?]
    rw [emits, List.nodup_cons]
    exact ⟨fun h => older c (Frame.emit_mem_iff.mpr h) rfl, inv.emitNodup⟩
  case gray =>
    intro x hx
    rcases emit_mem_push.mp hx with rfl | hx
    · exact ⟨List.mem_cons_self, fun posted => fresh (inv.postReached x posted).2, reached⟩
    · exact (inv.gray x (List.mem_cons_of_mem _ hx)).imp (List.mem_cons_of_mem c) id
  case visitedDone =>
    intro x hx
    rcases List.mem_cons.mp hx with rfl | hx
    · exact .inr (.inr (emit_mem_push.mpr (.inl rfl)))
    rcases inv.visitedDone x hx with pruned | posted | gray
    · exact .inl pruned
    · exact .inr (.inl posted)
    · exact .inr (.inr (emit_mem_push.mpr (.inr (by simpa using gray))))
  case explored =>
    intro x hx
    rcases explore_mem_push.mp hx with parent | hx
    · exact .inr ⟨c, reached, parent⟩
    · exact inv.explored x (List.mem_cons_of_mem _ hx)
  case tipsSeen =>
    intro t ht
    rcases inv.tipsSeen t ht with visited | h
    · exact .inl (List.mem_cons_of_mem c visited)
    rcases List.mem_cons.mp h with h | h
    · cases h
      exact .inl List.mem_cons_self
    · exact .inr (explore_mem_push.mpr (.inr h))
  case chain =>
    intro x hx fr hfr
    rcases emit_mem_push.mp hx with rfl | hx
    · -- above the new `Emit` are the parents' `Explore`s, one edge away
      rw [aboveNew] at hfr
      obtain ⟨p, hp, rfl⟩ := List.mem_map.mp hfr
      exact .single hp
    · -- above an older `Emit` the pushed frames hang off the commit it already reaches
      have toC := inv.chain x (List.mem_cons_of_mem _ hx) (.explore c)
        (by rw [above_cons (by simp)]; exact List.mem_cons_self)
      rw [aboveOlder x hx] at hfr
      rcases List.mem_append.mp hfr with hfr | hfr
      · obtain ⟨p, hp, rfl⟩ := List.mem_map.mp hfr
        exact toC.tail hp
      rcases List.mem_cons.mp hfr with rfl | hfr
      · exact toC
      · exact inv.chain x (List.mem_cons_of_mem _ hx) fr
          (by rw [above_cons (by simp)]; exact List.mem_cons_of_mem _ hfr)
  case grayParents =>
    intro x hx p hp
    rcases emit_mem_push.mp hx with rfl | hx
    · exact .inr (.inl (by rw [aboveNew]; exact List.mem_map_of_mem hp))
    rw [aboveOlder x hx]
    rcases inv.grayParents x (List.mem_cons_of_mem _ hx) p hp with done | h | h
    · exact .inl (done.mono grow (List.Subset.refl P))
    · rw [above_cons (by simp)] at h
      rcases List.mem_cons.mp h with h | h
      · -- the parent is the commit now explored: its `Emit` sits above
        cases h
        exact .inr (.inr (List.mem_append_right _ List.mem_cons_self))
      · exact .inr (.inl (List.mem_append_right _ (List.mem_cons_of_mem _ h)))
    · rw [above_cons (by simp)] at h
      exact .inr (.inr (List.mem_append_right _ (List.mem_cons_of_mem _ (by simpa using h))))

/- An `Emit` appends its commit to the postorder, after all of its followed parents. -/
theorem DfsInv.emit {c : C} {stack : List (Frame C)} {V P : List C}
    (inv : DfsInv parents firstParent prune tips ⟨.emit c :: stack, V, P⟩) :
    DfsInv parents firstParent prune tips ⟨stack, V, P ++ [c]⟩ := by
  obtain ⟨visited, fresh, reached⟩ := inv.gray c List.mem_cons_self
  have notDone := inv.not_done_of_gray (c := c) List.mem_cons_self
  have emits : (Frame.emit c :: stack).filterMap Frame.emitted? =
      c :: stack.filterMap Frame.emitted? := rfl
  have uniqueEmit := inv.emitNodup
  rw [emits, List.nodup_cons] at uniqueEmit
  -- the `Emit`s left on the stack are of other commits
  have other : ∀ x, .emit x ∈ stack → c ≠ x := fun x hx same =>
    uniqueEmit.1 (Frame.emit_mem_iff.mp (same ▸ hx))
  have grow : P ⊆ P ++ [c] := List.subset_append_left P [c]
  refine
    { postNodup := List.concat_eq_append ▸ inv.postNodup.concat fresh
      postReached := ?postReached
      visitedNodup := inv.visitedNodup
      emitNodup := uniqueEmit.2
      gray := ?gray
      visitedDone := ?visitedDone
      explored := fun x hx => inv.explored x (List.mem_cons_of_mem _ hx)
      tipsSeen := ?tipsSeen
      chain := fun x hx fr hfr => inv.chain x (List.mem_cons_of_mem _ hx) fr
        (by rw [above_cons (by simpa using other x hx)]; exact List.mem_cons_of_mem _ hfr)
      grayParents := ?grayParents
      blackParents := ?blackParents }
  case postReached =>
    intro x hx
    rcases List.mem_append.mp hx with hx | hx
    · exact inv.postReached x hx
    · obtain rfl := List.mem_singleton.mp hx
      exact ⟨reached, visited⟩
  case gray =>
    intro x hx
    obtain ⟨xVisited, xFresh, xReached⟩ := inv.gray x (List.mem_cons_of_mem _ hx)
    refine ⟨xVisited, fun posted => ?_, xReached⟩
    rcases List.mem_append.mp posted with posted | posted
    · exact xFresh posted
    · exact other x hx (List.mem_singleton.mp posted).symm
  case visitedDone =>
    intro x hx
    rcases inv.visitedDone x hx with pruned | posted | gray
    · exact .inl pruned
    · exact .inr (.inl (grow posted))
    rcases List.mem_cons.mp gray with h | gray
    · cases h
      exact .inr (.inl (List.mem_append_right P List.mem_cons_self))
    · exact .inr (.inr gray)
  case tipsSeen =>
    intro t ht
    exact (inv.tipsSeen t ht).imp_right fun h => by simpa using h
  case grayParents =>
    intro x hx p hp
    have below : above x (.emit c :: stack) = .emit c :: above x stack :=
      above_cons (by simpa using other x hx) stack
    rcases inv.grayParents x (List.mem_cons_of_mem _ hx) p hp with done | h | h
    · exact .inl (done.mono (List.Subset.refl V) grow)
    · rw [below] at h
      exact .inr (.inl (by simpa using h))
    · rw [below] at h
      rcases List.mem_cons.mp h with h | h
      · -- the parent is the commit just emitted
        cases h
        exact .inl ⟨visited, .inr (List.mem_append_right P List.mem_cons_self)⟩
      · exact .inr (.inr h)
  case blackParents =>
    intro x hx p hp
    -- a parent done before the `Emit` is not the commit emitted, which was gray
    have extend : (⟨.emit c :: stack, V, P⟩ : DfsState C).Done prune p →
        (p ∈ P → [p, x].Sublist (P ++ [c])) →
        (⟨stack, V, P ++ [c]⟩ : DfsState C).Done prune p ∧
          (p ∈ P ++ [c] → [p, x].Sublist (P ++ [c])) := by
      intro done sub
      refine ⟨done.mono (List.Subset.refl V) grow, fun posted => ?_⟩
      rcases List.mem_append.mp posted with posted | posted
      · exact sub posted
      · obtain rfl := List.mem_singleton.mp posted
        exact absurd done notDone
    rcases List.mem_append.mp hx with hx | hx
    · obtain ⟨done, sub⟩ := inv.blackParents x hx p hp
      exact extend done fun posted => (sub posted).trans (List.sublist_append_left P [c])
    · obtain rfl := List.mem_singleton.mp hx
      -- nothing is above the `Emit` on top, so the commit's parents were all done
      have done : (⟨.emit x :: stack, V, P⟩ : DfsState C).Done prune p := by
        rcases inv.grayParents x List.mem_cons_self p hp with done | h | h
        · exact done
        all_goals simp [above_emit_self] at h
      exact extend done fun posted =>
        (List.singleton_sublist.mpr posted).append (List.Sublist.refl [x])

/- Every frame keeps the invariant. -/
theorem DfsInv.step (dag : Acyclic parents) {s s' : DfsState C}
    (inv : DfsInv parents firstParent prune tips s)
    (h : dfsStep parents firstParent prune s = some s') :
    DfsInv parents firstParent prune tips s' := by
  rcases s with ⟨_ | ⟨c | c, stack⟩, V, P⟩
  · cases h
  · -- an `Explore`: visited, pruned or new
    simp only [dfsStep] at h
    split_ifs at h with seen pruned
    all_goals cases h
    · exact inv.explore_visited dag seen
    · exact inv.explore_pruned seen pruned
    · exact inv.explore_new seen (by simpa using pruned)
  · simp only [dfsStep] at h
    cases h
    exact inv.emit

theorem dfsStep_eq_none {s : DfsState C} :
    dfsStep parents firstParent prune s = none ↔ s.stack = [] := by
  rcases s with ⟨_ | ⟨c | c, stack⟩, V, P⟩
  · simp [dfsStep]
  · simp only [dfsStep]
    split_ifs <;> simp
  · simp [dfsStep]

theorem DfsInv.halted {s : DfsState C} (inv : DfsInv parents firstParent prune tips s)
    (halted : dfsStep parents firstParent prune s = none) :
    DfsInv parents firstParent prune tips ⟨[], s.visited, s.post⟩ := by
  obtain ⟨stack, V, P⟩ := s
  obtain rfl : stack = [] := dfsStep_eq_none.mp halted
  exact inv

/- A run that returns ends with an empty stack, its invariant kept by every frame. -/
theorem DfsInv.run (dag : Acyclic parents) {fuel : Nat} {s : DfsState C} {r : List C}
    (inv : DfsInv parents firstParent prune tips s)
    (h : dfs parents firstParent prune fuel s = some r) :
    ∃ V, DfsInv parents firstParent prune tips ⟨[], V, r⟩ := by
  fun_induction dfs parents firstParent prune fuel s with
  | case1 fuel s halted =>
    obtain rfl := Option.some.inj h
    exact ⟨_, inv.halted halted⟩
  | case2 => cases h
  | case3 s s' fuel next ih => exact ih (inv.step dag next) h

/- At the end of the search every reached commit has been emitted: a tip is visited, and a
followed parent of an emitted commit is done, neither being pruned. -/
theorem DfsInv.posted_of_reached {V P : List C}
    (inv : DfsInv parents firstParent prune tips ⟨[], V, P⟩) {c : C}
    (h : Reached parents firstParent prune tips c) : c ∈ P := by
  induction h with
  | tip tip kept =>
    rcases inv.tipsSeen _ tip with visited | h
    · rcases inv.visitedDone _ visited with pruned | posted | h
      · rw [kept] at pruned
        cases pruned
      · exact posted
      · cases h
    · cases h
  | parent _ hp kept ih =>
    obtain ⟨⟨_, pruned | posted⟩, _⟩ := inv.blackParents _ ih _ hp
    · rw [kept] at pruned
      cases pruned
    · exact posted

/- What the invariant says once the stack is empty. -/
theorem DfsInv.finished {V P : List C} (inv : DfsInv parents firstParent prune tips ⟨[], V, P⟩) :
    P.Nodup ∧ (∀ c, c ∈ P ↔ Reached parents firstParent prune tips c) ∧
      ∀ c p, p ∈ followed parents firstParent c → c ∈ P → p ∈ P → [p, c].Sublist P :=
  ⟨inv.postNodup, fun c => ⟨fun h => (inv.postReached c h).1, inv.posted_of_reached⟩,
    fun c p hp hc posted => (inv.blackParents c hc p hp).2 posted⟩

end Invariant

/-! ### Termination -/

section Termination

variable {C : Type*} [DecidableEq C] [Fintype C] (parents : C → List C) (firstParent : Bool)

/- The most parents the walk follows from one commit. -/
def maxFollowed : Nat := Finset.univ.sup fun c => (followed parents firstParent c).length

omit [DecidableEq C] in
theorem length_followed_le (c : C) :
    (followed parents firstParent c).length ≤ maxFollowed parents firstParent :=
  Finset.le_sup (f := fun c => (followed parents firstParent c).length) (Finset.mem_univ c)

/- A bound on the frames still to pop: each commit not yet visited may push its parents' frames
and its `Emit`, and each frame on the stack pops once. -/
def dfsMeasure (s : DfsState C) : Nat :=
  (Fintype.card C - s.visited.length) * (maxFollowed parents firstParent + 2) + s.stack.length

variable {parents firstParent} {prune : C → Bool}

/- Each frame marks a commit not visited before, or pops a frame and marks none; either way the
bound falls. -/
theorem dfsStep_measure_lt {s s' : DfsState C} (h : dfsStep parents firstParent prune s = some s')
    (nodup : s.visited.Nodup) :
    s'.visited.Nodup ∧ dfsMeasure parents firstParent s' < dfsMeasure parents firstParent s := by
  rcases s with ⟨_ | ⟨c | c, stack⟩, V, P⟩
  · cases h
  · simp only [dfsStep] at h
    split_ifs at h with seen pruned
    all_goals cases h
    · refine ⟨nodup, ?_⟩
      simp only [dfsMeasure, List.length_cons]
      omega
    all_goals
      -- a commit newly marked: one fewer left unvisited, which pays for its frames
      have marked : (c :: V).Nodup := List.nodup_cons.mpr ⟨seen, nodup⟩
      have bound := marked.length_le_card
      have pushed := length_followed_le parents firstParent c
      obtain ⟨left, hleft⟩ : ∃ left, Fintype.card C - V.length = left + 1 :=
        ⟨Fintype.card C - V.length - 1, by simp only [List.length_cons] at bound; omega⟩
      have fewer : Fintype.card C - (V.length + 1) = left := by omega
      refine ⟨marked, ?_⟩
      simp only [dfsMeasure, fewer, hleft, Nat.succ_mul, List.length_cons, List.length_append,
        List.length_map]
      omega
  · simp only [dfsStep] at h
    cases h
    refine ⟨nodup, ?_⟩
    simp only [dfsMeasure, List.length_cons]
    omega

/- The search stops within its bound on a finite graph. -/
theorem dfs_halts_within : ∀ (fuel : Nat) (s : DfsState C), s.visited.Nodup →
    dfsMeasure parents firstParent s ≤ fuel → ∃ r, dfs parents firstParent prune fuel s = some r := by
  intro fuel
  induction fuel with
  | zero =>
    intro s _ bound
    -- no frame is left to pop
    have empty : s.stack = [] := List.eq_nil_of_length_eq_zero (by
      unfold dfsMeasure at bound
      omega)
    exact ⟨s.post, by rw [dfs.eq_def]; simp [dfsStep_eq_none.mpr empty]⟩
  | succ fuel ih =>
    intro s nodup bound
    cases next : dfsStep parents firstParent prune s with
    | none => exact ⟨s.post, by rw [dfs.eq_def]; simp [next]⟩
    | some s' =>
      obtain ⟨nodup', lower⟩ := dfsStep_measure_lt next nodup
      obtain ⟨r, run⟩ := ih s' nodup' (by omega)
      exact ⟨r, by rw [dfs.eq_def]; simp [next, run]⟩

end Termination

/-! ### What the walk returns -/

/- A graph whose commits carry a rank that falls along every parent edge has no cycle. -/
theorem acyclic_of_rank {C : Type*} [DecidableEq C] {parents : C → List C} (rank : C → Nat)
    (falls : ∀ c p, p ∈ parents c → rank p < rank c) : Acyclic parents := by
  have descends : ∀ {a b}, Relation.TransGen (fun c p => p ∈ parents c) a b → rank b < rank a := by
    intro a b path
    induction path with
    | single edge => exact falls _ _ edge
    | tail _ edge ih => exact lt_trans (falls _ _ edge) ih
  exact fun c cycle => lt_irrefl _ (descends cycle)

/- `into_topo_vec` over a finite acyclic graph, given as many frames as `dfsMeasure` bounds,
returns each commit reached from the tips exactly once, and every commit before its followed
parents. -/
theorem intoTopoVec_spec {C : Type*} [DecidableEq C] [Fintype C] {parents : C → List C}
    (dag : Acyclic parents) (firstParent : Bool) (prune : C → Bool) (tips : List C) {fuel : Nat}
    (enough : dfsMeasure parents firstParent ⟨tips.map .explore, [], []⟩ ≤ fuel) :
    ∃ order, intoTopoVec parents firstParent prune fuel tips = some order ∧ order.Nodup ∧
      (∀ c, c ∈ order ↔ Reached parents firstParent prune tips c) ∧
      ∀ c p, p ∈ followed parents firstParent c → c ∈ order → p ∈ order →
        [c, p].Sublist order := by
  obtain ⟨post, halts⟩ := dfs_halts_within fuel _ List.nodup_nil enough
  refine ⟨post.reverse, by rw [intoTopoVec, halts]; rfl, ?_⟩
  obtain ⟨V, final⟩ := dfsInv_start.run dag halts
  obtain ⟨nodup, reached, ordered⟩ := final.finished
  refine ⟨List.nodup_reverse.mpr nodup, fun c => by rw [List.mem_reverse]; exact reached c, ?_⟩
  intro c p hp hc posted
  rw [List.mem_reverse] at hc posted
  -- the postorder has the parent first; reversed, the commit comes first
  exact List.reverse_sublist.mpr (ordered c p hp hc posted)

/- `into_topo_vec` over a finite acyclic graph returns, once it is given enough frames, each
commit reached from the tips exactly once, and every commit before its followed parents. -/
theorem into_topo_vec_orders_reached {C : Type*} [DecidableEq C] [Fintype C]
    {parents : C → List C} (dag : Acyclic parents) (firstParent : Bool) (prune : C → Bool)
    (tips : List C) :
    ∃ N, ∀ fuel, N ≤ fuel → ∃ order,
      intoTopoVec parents firstParent prune fuel tips = some order ∧ order.Nodup ∧
        (∀ c, c ∈ order ↔ Reached parents firstParent prune tips c) ∧
        ∀ c p, p ∈ followed parents firstParent c → c ∈ order → p ∈ order →
          [c, p].Sublist order :=
  ⟨dfsMeasure parents firstParent ⟨tips.map .explore, [], []⟩,
    fun _ enough => intoTopoVec_spec dag firstParent prune tips enough⟩

/- A diamond: the tip, its two parents in parent order, and their common parent last. -/
example : intoTopoVec (fun c : Fin 4 => if c = 0 then [1, 2] else if c = 3 then [] else [3])
    false (fun _ => false) 10 [0] = some [0, 2, 1, 3] := by
  decide

theorem diamond_walk_orders_reached :
    let parents : Fin 4 → List (Fin 4) := fun c =>
      if c = 0 then [1, 2] else if c = 3 then [] else [3]
    Acyclic parents ∧ ∃ N, ∀ fuel, N ≤ fuel → ∃ order,
      intoTopoVec parents false (fun _ => false) fuel [0] = some order ∧ order.Nodup ∧
        (∀ c, c ∈ order ↔ Reached parents false (fun _ => false) [0] c) ∧
        ∀ c p, p ∈ followed parents false c → c ∈ order → p ∈ order → [c, p].Sublist order := by
  intro parents
  have dag : Acyclic parents := acyclic_of_rank (fun c => 3 - c.val) (by decide)
  exact ⟨dag, into_topo_vec_orders_reached dag false (fun _ => false) [0]⟩

end Josh
