import Josh.Walk.Reach

/-! `RangeWalk` of `josh-gix-ext/src/revwalk.rs`: git's `base..tip`, the commits reachable from
a tip and not from a base, children before parents. A single-parent chain from the tip into the
base is returned as it is. Otherwise a frontier ranked by sequence number, greatest first,
spreads hidden marks from the base to its ancestors and emits the visible commits it pops, until
no visible entry is pending. When the numbers fall along every parent edge, both ways return
exactly the range, each commit once. -/

namespace Josh

/-- An entry of the ranked frontier, `(u64, Reverse<u64>, usize)` in the source: the commit's
sequence number, the counter value it was pushed under, and the commit. -/
structure RankEntry (C : Type*) where
  number : Nat
  order : Nat
  commit : C
  deriving DecidableEq

/-- The state of a `RangeWalk`: the `hidden`, `enqueued` and `queued_visible` flags of its
nodes, the frontier, the push counter `seq`, the count of visible pending entries, and the
commits emitted so far. -/
structure RangeState (C : Type*) where
  hidden : C → Bool
  enqueued : C → Bool
  queuedVisible : C → Bool
  heap : List (RankEntry C)
  seq : Nat
  visiblePending : Nat
  out : List C

section RangeWalk

variable {C : Type*} [DecidableEq C] (parents : C → List C) (seqOf : C → Nat)

/-- Of two entries, the one `BinaryHeap` pops first: the greater number, then the earlier push.
Push counters are distinct, so the node index never breaks a tie. -/
def RankEntry.pick (m x : RankEntry C) : RankEntry C :=
  if m.number < x.number ∨ (x.number = m.number ∧ x.order < m.order) then x else m

/-- `BinaryHeap::pop`: the greatest entry and the rest of the frontier. -/
def heapPop : List (RankEntry C) → Option (RankEntry C × List (RankEntry C))
  | [] => none
  | e :: es =>
    let top := es.foldl RankEntry.pick e
    some (top, (e :: es).erase top)

/-- A commit entering the frontier: marked enqueued, counted as visible pending unless hidden,
and pushed under the next counter value. -/
def enqueue (s : RangeState C) (c : C) : RangeState C :=
  { s with
    enqueued := Function.update s.enqueued c true
    queuedVisible := if s.hidden c then s.queuedVisible else Function.update s.queuedVisible c true
    visiblePending := if s.hidden c then s.visiblePending else s.visiblePending + 1
    heap := ⟨seqOf c, s.seq, c⟩ :: s.heap
    seq := s.seq + 1 }

/-- A parent met by a visible pop: enqueued unless it already was. -/
def visitParent (s : RangeState C) (p : C) : RangeState C :=
  if s.enqueued p then s else enqueue seqOf s p

/-- The hidden mark arriving at a commit; a visible pending entry of it stops counting. -/
def hide (s : RangeState C) (p : C) : RangeState C :=
  if s.hidden p then s
  else
    { s with
      hidden := Function.update s.hidden p true
      queuedVisible := if s.queuedVisible p then Function.update s.queuedVisible p false
        else s.queuedVisible
      visiblePending := if s.queuedVisible p then s.visiblePending - 1 else s.visiblePending }

/-- A parent met by a hidden pop: hidden, then enqueued unless it already was. Being hidden by
then, it is not counted as visible. -/
def hideParent (s : RangeState C) (p : C) : RangeState C := visitParent seqOf (hide s p) p

/-- A visible pop's own bookkeeping: the commit is no longer pending, and it is emitted. -/
def emitVisible (s : RangeState C) (c : C) : RangeState C :=
  { s with
    queuedVisible := Function.update s.queuedVisible c false
    visiblePending := s.visiblePending - 1
    out := s.out ++ [c] }

/-- One pop of `ranked_walk`'s loop, the popped entry already off the frontier: a hidden
commit spreads its mark to its parents, a visible one is emitted and its parents enqueued. -/
def rankedStep (s : RangeState C) (c : C) : RangeState C :=
  if s.hidden c then (parents c).foldl (hideParent seqOf) s
  else (parents c).foldl (visitParent seqOf) (emitVisible s c)

/-- The loop of `ranked_walk`: entries are popped while a visible one is pending and the
frontier is not empty. The loop runs on fuel. -/
def rankedLoop : Nat → RangeState C → Option (List C)
  | fuel, s =>
    if s.visiblePending = 0 then some s.out
    else
      match heapPop s.heap, fuel with
      | none, _ => some s.out
      | some _, 0 => none
      | some (top, rest), fuel + 1 =>
        rankedLoop fuel (rankedStep parents seqOf { s with heap := rest } top.commit)

/-- The state the loop starts from: the base hidden by `into_topo_vec`, then the tip and the
base enqueued in that order. -/
def rankedStart (tip base : C) : RangeState C :=
  [tip, base].foldl (enqueue seqOf)
    ⟨fun c => decide (c = base), fun _ => false, fun _ => false, [], 0, 0, []⟩

/-- `ranked_walk`. -/
def rankedWalk (fuel : Nat) (tip base : C) : Option (List C) :=
  rankedLoop parents seqOf fuel (rankedStart seqOf tip base)

/-- `FAST_FORWARD_PROBE_LIMIT`. -/
def fastForwardProbeLimit : Nat := 1000

/-- `fast_forward_walk`: the single-parent chain from a commit down to the base, within the
probe budget; `none` hands over to the ranked walk, on a merge, a root or an exhausted
budget. -/
def fastForwardWalk (base : C) : Nat → C → List C → Option (List C)
  | 0, _, _ => none
  | n + 1, c, out =>
    if c = base then some out
    else
      match parents c with
      | [p] => fastForwardWalk base n p (out ++ [c])
      | _ => none

/-- `RangeWalk::into_topo_vec`: nothing when the tip is the base, the chain when the fast path
finds one, and the ranked walk otherwise, with a pop for each commit as its fuel. -/
def RangeWalk.intoTopoVec [Fintype C] (tip base : C) : Option (List C) :=
  if tip = base then some []
  else
    match fastForwardWalk parents base fastForwardProbeLimit tip [] with
    | some chain => some chain
    | none => rankedWalk parents seqOf (Fintype.card C) tip base

end RangeWalk

/-! ### What the walk is meant to return -/

/-- `order` lists `base..tip`, the commits reachable from the tip and not from the base, each
once and every commit before its parents. -/
def IsRange {C : Type*} (parents : C → List C) (tip base : C) (order : List C) : Prop :=
  order.Nodup ∧ (∀ c, c ∈ order ↔ Reaches parents tip c ∧ ¬ Reaches parents base c) ∧
    ∀ c p, p ∈ parents c → c ∈ order → p ∈ order → [c, p].Sublist order

/-! ### Marks carried through a fold -/

section Folds

variable {σ α : Type*} (f : σ → α → σ)

/- A fold whose steps each add their own item to a set of marks ends with the items added. -/
theorem foldl_marks (g : σ → α → Prop) (step : ∀ s p x, g (f s p) x ↔ g s x ∨ x = p) :
    ∀ (ps : List α) (s : σ) (x : α), g (ps.foldl f s) x ↔ g s x ∨ x ∈ ps
  | [], s, x => by simp
  | p :: ps, s, x => by
    rw [List.foldl_cons, foldl_marks g step ps, step, List.mem_cons]
    tauto

/- A fold whose steps each keep a property of the state keeps it. -/
theorem foldl_keeps (g : σ → α → Prop) (step : ∀ s p x, g (f s p) x ↔ g s x) :
    ∀ (ps : List α) (s : σ) (x : α), g (ps.foldl f s) x ↔ g s x
  | [], _, _ => Iff.rfl
  | p :: ps, s, x => by rw [List.foldl_cons, foldl_keeps g step ps, step]

end Folds

/-! ### The frontier's pop -/

section Heap

variable {C : Type*} [DecidableEq C]

omit [DecidableEq C] in
theorem foldl_pick_mem (e : RankEntry C) (es : List (RankEntry C)) :
    es.foldl RankEntry.pick e ∈ e :: es := by
  induction es generalizing e with
  | nil => exact List.mem_cons_self
  | cons x es ih =>
    rw [List.foldl_cons]
    rcases List.mem_cons.mp (ih (e.pick x)) with h | h
    · rw [h]
      unfold RankEntry.pick
      split_ifs
      · exact List.mem_cons_of_mem e List.mem_cons_self
      · exact List.mem_cons_self
    · exact List.mem_cons_of_mem e (List.mem_cons_of_mem x h)

omit [DecidableEq C] in
theorem le_foldl_pick (e : RankEntry C) (es : List (RankEntry C)) :
    ∀ x ∈ e :: es, x.number ≤ (es.foldl RankEntry.pick e).number := by
  induction es generalizing e with
  | nil =>
    intro x hx
    rw [List.mem_singleton.mp hx]
    exact le_rfl
  | cons y es ih =>
    have picked : e.number ≤ (e.pick y).number ∧ y.number ≤ (e.pick y).number := by
      unfold RankEntry.pick
      split_ifs
      · exact ⟨by omega, le_rfl⟩
      · exact ⟨le_rfl, by omega⟩
    have top := ih (e.pick y)
    intro x hx
    rw [List.foldl_cons]
    rcases List.mem_cons.mp hx with rfl | hx
    · exact picked.1.trans (top _ List.mem_cons_self)
    rcases List.mem_cons.mp hx with rfl | hx
    · exact picked.2.trans (top _ List.mem_cons_self)
    · exact top x (List.mem_cons_of_mem _ hx)

/-- A pop returns an entry of the frontier with the greatest number, and the frontier without
it. -/
theorem heapPop_spec {h rest : List (RankEntry C)} {top : RankEntry C}
    (hp : heapPop h = some (top, rest)) :
    top ∈ h ∧ rest = h.erase top ∧ ∀ e ∈ h, e.number ≤ top.number := by
  cases h with
  | nil => cases hp
  | cons e es =>
    simp only [heapPop, Option.some.injEq, Prod.mk.injEq] at hp
    obtain ⟨rfl, rfl⟩ := hp
    exact ⟨foldl_pick_mem e es, rfl, le_foldl_pick e es⟩

theorem heapPop_eq_none {h : List (RankEntry C)} : heapPop h = none ↔ h = [] := by
  cases h <;> simp [heapPop]

/- The commits left on a frontier of distinct commits once an entry is taken off. -/
theorem mem_commits_erase {h : List (RankEntry C)} {top : RankEntry C}
    (nodup : (h.map RankEntry.commit).Nodup) (mem : top ∈ h) {c : C} :
    c ∈ (h.erase top).map RankEntry.commit ↔ c ∈ h.map RankEntry.commit ∧ c ≠ top.commit := by
  have entries : h.Nodup := nodup.of_map _
  simp only [List.mem_map, entries.mem_erase_iff]
  constructor
  · rintro ⟨e, ⟨ne, he⟩, rfl⟩
    exact ⟨⟨e, he, rfl⟩, fun same => ne (List.inj_on_of_nodup_map nodup he mem same)⟩
  · rintro ⟨⟨e, he, rfl⟩, ne⟩
    exact ⟨e, ⟨fun same => ne (congrArg RankEntry.commit same), he⟩, rfl⟩

/- Hiding a commit that is not yet hidden takes its entry, if any, out of the count of visible
entries. -/
theorem countP_hide {h : List (RankEntry C)} (nodup : (h.map RankEntry.commit).Nodup)
    (hidden : C → Bool) {p : C} (visible : hidden p = false) :
    (h.countP fun e => !hidden e.commit) =
      (h.countP fun e => !Function.update hidden p true e.commit) +
        if p ∈ h.map RankEntry.commit then 1 else 0 := by
  induction h with
  | nil => simp
  | cons e es ih =>
    rw [List.map_cons, List.nodup_cons] at nodup
    rw [List.countP_cons, List.countP_cons, ih nodup.2]
    by_cases hp : e.commit = p
    · subst hp
      simp [nodup.1, visible]
    · simp [Function.update_of_ne hp, Ne.symm hp]
      exact Nat.add_right_comm _ _ _

end Heap

/-! ### The invariant of the ranked loop -/

section Invariant

variable {C : Type*} [DecidableEq C] {parents : C → List C} {seqOf : C → Nat} {tip base : C}
  {s : RangeState C} {c p x : C}

/-- A commit that entered the frontier and has left it. -/
def Popped (s : RangeState C) (c : C) : Prop :=
  s.enqueued c = true ∧ c ∉ s.heap.map RankEntry.commit

instance (s : RangeState C) : DecidablePred (Popped s) :=
  fun _ => inferInstanceAs (Decidable (_ ∧ _))

/-- What holds of the walk's state between two pops, and between two parents of one pop. -/
structure FrontierInv (parents : C → List C) (seqOf : C → Nat) (tip base : C)
    (s : RangeState C) : Prop where
  heapNodup : (s.heap.map RankEntry.commit).Nodup
  heapNumber : ∀ e ∈ s.heap, e.number = seqOf e.commit
  heapEnqueued : ∀ e ∈ s.heap, s.enqueued e.commit = true
  reached : ∀ c, s.enqueued c = true → Reaches parents tip c ∨ Reaches parents base c
  hiddenBelowBase : ∀ c, s.hidden c = true → Reaches parents base c
  baseHidden : s.hidden base = true
  baseEnqueued : s.enqueued base = true
  tipEnqueued : s.enqueued tip = true
  -- a popped commit ranks at least as high as anything still on the frontier
  poppedAbove : ∀ c, Popped s c → ∀ e ∈ s.heap, e.number ≤ seqOf c
  queued : ∀ c, s.queuedVisible c = true ↔ c ∈ s.heap.map RankEntry.commit ∧ s.hidden c = false
  pending : s.visiblePending = s.heap.countP fun e => !s.hidden e.commit
  outIff : ∀ c, c ∈ s.out ↔ Popped s c ∧ s.hidden c = false
  outNodup : s.out.Nodup
  outOutside : ∀ c ∈ s.out, ¬ Reaches parents base c
  outOrder : ∀ c p, p ∈ parents c → c ∈ s.out → p ∈ s.out → [c, p].Sublist s.out

/-- A popped commit has passed on what it carries: its parents are enqueued, and hidden when it
is. -/
def ParentsMarked (parents : C → List C) (s : RangeState C) (c : C) : Prop :=
  (∀ p ∈ parents c, s.enqueued p = true) ∧
    (s.hidden c = true → ∀ p ∈ parents c, s.hidden p = true)

/-- The invariant of the loop: between two pops, every popped commit has marked its
parents. -/
structure RangeInv (parents : C → List C) (seqOf : C → Nat) (tip base : C) (s : RangeState C) :
    Prop extends FrontierInv parents seqOf tip base s where
  parentsMarked : ∀ c, Popped s c → ParentsMarked parents s c

omit [DecidableEq C] in
theorem ParentsMarked.mono {t : RangeState C} (h : ParentsMarked parents s x)
    (enq : ∀ c, s.enqueued c = true → t.enqueued c = true)
    (hid : ∀ c, s.hidden c = true → t.hidden c = true)
    (same : t.hidden x = true → s.hidden x = true) : ParentsMarked parents t x :=
  ⟨fun p hp => enq p (h.1 p hp), fun hx p hp => hid p (h.2 (same hx) p hp)⟩

theorem update_true_of {f : C → Bool} (h : f x = true) (c : C) :
    Function.update f c true x = true := by
  by_cases hx : x = c <;> simp [hx, h]

/-! What each operation on the state changes. -/

@[simp] theorem enqueue_hidden : (enqueue seqOf s c).hidden = s.hidden := rfl

@[simp] theorem enqueue_enqueued :
    (enqueue seqOf s c).enqueued = Function.update s.enqueued c true := rfl

@[simp] theorem enqueue_heap : (enqueue seqOf s c).heap = ⟨seqOf c, s.seq, c⟩ :: s.heap := rfl

@[simp] theorem enqueue_out : (enqueue seqOf s c).out = s.out := rfl

@[simp] theorem hide_enqueued : (hide s p).enqueued = s.enqueued := by
  unfold hide; split <;> rfl

@[simp] theorem hide_heap : (hide s p).heap = s.heap := by
  unfold hide; split <;> rfl

@[simp] theorem hide_out : (hide s p).out = s.out := by
  unfold hide; split <;> rfl

theorem hide_hidden : (hide s p).hidden = Function.update s.hidden p true := by
  unfold hide
  split
  · next h => exact (Function.update_eq_self_iff.mpr h.symm).symm
  · rfl

theorem hidden_visitParent : (visitParent seqOf s p).hidden = s.hidden := by
  unfold visitParent; split <;> rfl

theorem enqueued_visitParent :
    (visitParent seqOf s p).enqueued x = true ↔ s.enqueued x = true ∨ x = p := by
  unfold visitParent
  by_cases hx : x = p
  · subst hx
    split <;> simp_all
  · split <;> simp [hx]

theorem enqueued_hideParent :
    (hideParent seqOf s p).enqueued x = true ↔ s.enqueued x = true ∨ x = p := by
  rw [hideParent, enqueued_visitParent, hide_enqueued]

theorem hidden_hideParent :
    (hideParent seqOf s p).hidden x = true ↔ s.hidden x = true ∨ x = p := by
  rw [hideParent, hidden_visitParent, hide_hidden]
  by_cases hx : x = p <;> simp [hx]

/-! Which commits are popped: a push never changes that, a pop adds the popped commit. -/

theorem popped_enqueue (fresh : s.enqueued c = false) :
    Popped (enqueue seqOf s c) x ↔ Popped s x := by
  unfold Popped
  by_cases hx : x = c
  · subst hx
    simp [fresh]
  · simp [hx]

theorem popped_visitParent : Popped (visitParent seqOf s p) x ↔ Popped s x := by
  unfold visitParent
  split
  · exact Iff.rfl
  · next h => exact popped_enqueue (by simpa using h)

theorem popped_hideParent : Popped (hideParent seqOf s p) x ↔ Popped s x := by
  rw [hideParent, popped_visitParent]
  simp [Popped]

omit [DecidableEq C] in
theorem not_popped_of_mem {top : RankEntry C} (mem : top ∈ s.heap) : ¬ Popped s top.commit :=
  fun h => h.2 (List.mem_map_of_mem mem)

theorem popped_erase (I : FrontierInv parents seqOf tip base s) {top : RankEntry C}
    (mem : top ∈ s.heap) : Popped { s with heap := s.heap.erase top } x ↔ Popped s x ∨ x = top.commit := by
  unfold Popped
  dsimp only
  rw [mem_commits_erase I.heapNodup mem]
  by_cases hx : x = top.commit
  · subst hx
    simp [I.heapEnqueued top mem]
  · simp [hx]

/-! ### One parent at a time -/

theorem FrontierInv.enqueue (I : FrontierInv parents seqOf tip base s) (fresh : s.enqueued c = false)
    (reach : Reaches parents tip c ∨ Reaches parents base c)
    (below : ∀ x, Popped s x → seqOf c < seqOf x) :
    FrontierInv parents seqOf tip base (enqueue seqOf s c) := by
  -- an entry on the frontier is enqueued, so the new commit has none yet
  have absent : c ∉ s.heap.map RankEntry.commit := by
    intro h
    obtain ⟨e, he, rfl⟩ := List.mem_map.mp h
    have := I.heapEnqueued e he
    rw [fresh] at this
    cases this
  refine
    { heapNodup := ?_, heapNumber := ?_, heapEnqueued := ?_, reached := ?_
      hiddenBelowBase := I.hiddenBelowBase, baseHidden := I.baseHidden
      baseEnqueued := update_true_of I.baseEnqueued c
      tipEnqueued := update_true_of I.tipEnqueued c
      poppedAbove := ?_, queued := ?_, pending := ?_, outIff := ?_
      outNodup := I.outNodup, outOutside := I.outOutside, outOrder := I.outOrder }
  · rw [enqueue_heap, List.map_cons, List.nodup_cons]
    exact ⟨absent, I.heapNodup⟩
  · intro e he
    rcases List.mem_cons.mp he with rfl | he
    · rfl
    · exact I.heapNumber e he
  · intro e he
    rcases List.mem_cons.mp he with rfl | he
    · simp
    · exact update_true_of (I.heapEnqueued e he) c
  · intro x hx
    by_cases hxc : x = c
    · exact hxc ▸ reach
    · rw [enqueue_enqueued, Function.update_of_ne hxc] at hx
      exact I.reached x hx
  · intro x hx e he
    rw [popped_enqueue fresh] at hx
    rcases List.mem_cons.mp he with rfl | he
    · exact (below x hx).le
    · exact I.poppedAbove x hx e he
  · intro x
    have old := I.queued x
    by_cases hxc : x = c
    · subst hxc
      cases h : s.hidden x <;> simp_all [Josh.enqueue]
    · simp only [Josh.enqueue, List.map_cons, List.mem_cons, hxc, false_or]
      split <;> simp [Function.update_of_ne hxc, old]
  · simp only [Josh.enqueue, List.countP_cons, I.pending]
    cases s.hidden c <;> simp
  · intro x
    rw [popped_enqueue fresh]
    exact I.outIff x

theorem FrontierInv.visitParent (I : FrontierInv parents seqOf tip base s)
    (reach : Reaches parents tip p ∨ Reaches parents base p)
    (below : ∀ x, Popped s x → seqOf p < seqOf x) :
    FrontierInv parents seqOf tip base (visitParent seqOf s p) := by
  unfold Josh.visitParent
  split
  · exact I
  · next h => exact I.enqueue (by simpa using h) reach below

theorem FrontierInv.hide (I : FrontierInv parents seqOf tip base s)
    (reach : Reaches parents base p) (notPopped : ¬ Popped s p) :
    FrontierInv parents seqOf tip base (hide s p) := by
  unfold Josh.hide
  split
  · exact I
  next visible =>
  have hv : s.hidden p = false := by simpa using visible
  refine
    { heapNodup := I.heapNodup, heapNumber := I.heapNumber, heapEnqueued := I.heapEnqueued
      reached := I.reached, hiddenBelowBase := ?_, baseHidden := update_true_of I.baseHidden p
      baseEnqueued := I.baseEnqueued, tipEnqueued := I.tipEnqueued
      poppedAbove := I.poppedAbove, queued := ?_, pending := ?_, outIff := ?_
      outNodup := I.outNodup, outOutside := I.outOutside, outOrder := I.outOrder }
  · intro x hx
    by_cases hxp : x = p
    · exact hxp ▸ reach
    · dsimp only at hx
      rw [Function.update_of_ne hxp] at hx
      exact I.hiddenBelowBase x hx
  · intro x
    dsimp only
    by_cases hxp : x = p
    · subst hxp
      split <;> simp_all
    · split <;> simp [Function.update_of_ne hxp, I.queued x]
  · -- the count loses the commit's entry exactly when one was pending as visible
    have count := countP_hide I.heapNodup s.hidden hv
    have queued : s.queuedVisible p = true ↔ p ∈ s.heap.map RankEntry.commit := by
      simpa [hv] using I.queued p
    dsimp only
    rw [I.pending]
    split
    · next hq =>
      rw [if_pos (queued.mp hq)] at count
      omega
    · next hq =>
      rw [if_neg (fun hm => hq (queued.mpr hm))] at count
      omega
  · intro x
    by_cases hxp : x = p
    · subst hxp
      exact ⟨fun h => absurd ((I.outIff x).mp h).1 notPopped, fun h => absurd h.1 notPopped⟩
    · dsimp only
      rw [Function.update_of_ne hxp]
      exact I.outIff x

theorem FrontierInv.hideParent (I : FrontierInv parents seqOf tip base s)
    (reach : Reaches parents base p) (below : ∀ x, Popped s x → seqOf p < seqOf x) :
    FrontierInv parents seqOf tip base (hideParent seqOf s p) :=
  (I.hide reach fun hp => lt_irrefl _ (below p hp)).visitParent (.inr reach)
    fun x hx => below x (by simpa [Popped] using hx)

theorem FrontierInv.foldl_visitParent {ps : List C} (I : FrontierInv parents seqOf tip base s)
    (reach : ∀ p ∈ ps, Reaches parents tip p ∨ Reaches parents base p)
    (below : ∀ p ∈ ps, ∀ x, Popped s x → seqOf p < seqOf x) :
    FrontierInv parents seqOf tip base (ps.foldl (Josh.visitParent seqOf) s) := by
  induction ps generalizing s with
  | nil => exact I
  | cons p ps ih =>
    have first := I.visitParent (reach p List.mem_cons_self) (below p List.mem_cons_self)
    exact ih first (fun q hq => reach q (List.mem_cons_of_mem p hq))
      fun q hq x hx => below q (List.mem_cons_of_mem p hq) x (popped_visitParent.mp hx)

theorem FrontierInv.foldl_hideParent {ps : List C} (I : FrontierInv parents seqOf tip base s)
    (reach : ∀ p ∈ ps, Reaches parents base p)
    (below : ∀ p ∈ ps, ∀ x, Popped s x → seqOf p < seqOf x) :
    FrontierInv parents seqOf tip base (ps.foldl (Josh.hideParent seqOf) s) := by
  induction ps generalizing s with
  | nil => exact I
  | cons p ps ih =>
    have first := I.hideParent (reach p List.mem_cons_self) (below p List.mem_cons_self)
    exact ih first (fun q hq => reach q (List.mem_cons_of_mem p hq))
      fun q hq x hx => below q (List.mem_cons_of_mem p hq) x (popped_hideParent.mp hx)

/-! ### One pop -/

theorem rankedStep_hidden {rest : List (RankEntry C)} (h : s.hidden c = true) :
    rankedStep parents seqOf { s with heap := rest } c =
      (parents c).foldl (Josh.hideParent seqOf) { s with heap := rest } := if_pos h

theorem rankedStep_visible {rest : List (RankEntry C)} (h : s.hidden c = false) :
    rankedStep parents seqOf { s with heap := rest } c =
      (parents c).foldl (Josh.visitParent seqOf) (emitVisible { s with heap := rest } c) :=
  if_neg (by simp [h])

theorem popped_emitVisible : Popped (emitVisible s c) x ↔ Popped s x := Iff.rfl

theorem FrontierInv.poppedAbove_erase (I : FrontierInv parents seqOf tip base s)
    {top : RankEntry C} (mem : top ∈ s.heap) (max : ∀ e ∈ s.heap, e.number ≤ top.number) :
    ∀ x, Popped s x ∨ x = top.commit → ∀ e ∈ s.heap.erase top, e.number ≤ seqOf x := by
  rintro x (hx | rfl) e he
  · exact I.poppedAbove x hx e (List.mem_of_mem_erase he)
  · rw [← I.heapNumber top mem]
    exact max e (List.mem_of_mem_erase he)

/- Taking a hidden entry off the frontier keeps the invariant: the commit counted as pending
nowhere. -/
theorem FrontierInv.popHidden (I : FrontierInv parents seqOf tip base s) {top : RankEntry C}
    (mem : top ∈ s.heap) (max : ∀ e ∈ s.heap, e.number ≤ top.number)
    (hid : s.hidden top.commit = true) :
    FrontierInv parents seqOf tip base { s with heap := s.heap.erase top } where
  heapNodup := I.heapNodup.sublist (List.erase_sublist.map _)
  heapNumber e he := I.heapNumber e (List.mem_of_mem_erase he)
  heapEnqueued e he := I.heapEnqueued e (List.mem_of_mem_erase he)
  reached := I.reached
  hiddenBelowBase := I.hiddenBelowBase
  baseHidden := I.baseHidden
  baseEnqueued := I.baseEnqueued
  tipEnqueued := I.tipEnqueued
  poppedAbove x hx := I.poppedAbove_erase mem max x ((popped_erase I mem).mp hx)
  queued x := by
    dsimp only
    rw [mem_commits_erase I.heapNodup mem, I.queued x]
    by_cases hx : x = top.commit
    · subst hx
      simp [hid]
    · simp [hx]
  pending := by
    dsimp only
    rw [List.countP_erase, I.pending]
    simp [hid]
  outIff x := by
    dsimp only
    rw [popped_erase I mem, I.outIff x]
    by_cases hx : x = top.commit
    · subst hx
      simp [hid]
    · simp [hx]
  outNodup := I.outNodup
  outOutside := I.outOutside
  outOrder := I.outOrder

/- Along a path from a hidden enqueued commit, the first commit not yet popped is a hidden entry
of the frontier: a popped hidden commit has hidden and enqueued its parents. -/
theorem RangeInv.frontier (I : RangeInv parents seqOf tip base s) {u h : C}
    (path : Reaches parents u h) (enq : s.enqueued u = true) (hid : s.hidden u = true) :
    (∃ e ∈ s.heap, s.hidden e.commit = true ∧ Reaches parents e.commit h) ∨ Popped s h := by
  revert enq hid
  unfold Reaches at path
  induction path using Relation.ReflTransGen.head_induction_on with
  | refl =>
    intro enq hid
    by_cases inHeap : h ∈ s.heap.map RankEntry.commit
    · obtain ⟨e, he, rfl⟩ := List.mem_map.mp inHeap
      exact .inl ⟨e, he, hid, Reaches.refl _⟩
    · exact .inr ⟨enq, inHeap⟩
  | head edge rest ih =>
    rename_i u p
    intro enq hid
    by_cases inHeap : u ∈ s.heap.map RankEntry.commit
    · obtain ⟨e, he, rfl⟩ := List.mem_map.mp inHeap
      exact .inl ⟨e, he, hid, Reaches.parent edge rest⟩
    · obtain ⟨enqueued, hidden⟩ := I.parentsMarked u ⟨enq, inHeap⟩
      exact ih (enqueued p edge) (hidden hid p edge)

section Falls

variable (falls : ∀ c p, p ∈ parents c → seqOf p < seqOf c)
include falls

omit [DecidableEq C] in
/- A parent of the popped commit ranks below every popped commit. -/
theorem FrontierInv.parent_below (I : FrontierInv parents seqOf tip base s) {top : RankEntry C}
    (mem : top ∈ s.heap) {p : C} (hp : p ∈ parents top.commit) :
    ∀ x, Popped s x ∨ x = top.commit → seqOf p < seqOf x := by
  rintro x (hx | rfl)
  · have above := I.poppedAbove x hx top mem
    rw [I.heapNumber top mem] at above
    exact lt_of_lt_of_le (falls _ _ hp) above
  · exact falls _ _ hp

/- The hidden marks arrive before the pop: an ancestor of the base leaves the frontier hidden.
Otherwise a hidden entry reaching it would still wait on the frontier, ranked above it. -/
theorem RangeInv.hidden_of_reaches_base (I : RangeInv parents seqOf tip base s)
    {top : RankEntry C} (mem : top ∈ s.heap) (max : ∀ e ∈ s.heap, e.number ≤ top.number)
    (below : Reaches parents base top.commit) : s.hidden top.commit = true := by
  rcases I.frontier below I.baseEnqueued I.baseHidden with ⟨e, he, hid, reach⟩ | popped
  · by_cases same : top.commit = e.commit
    · rwa [same]
    · have lower := reach.rank_lt falls same
      have := max e he
      rw [I.heapNumber e he, I.heapNumber top mem] at this
      omega
  · exact absurd popped (not_popped_of_mem mem)

/- Taking a visible entry off the frontier and emitting its commit keeps the invariant, given
that the commit is not an ancestor of the base. -/
theorem FrontierInv.popVisible (I : FrontierInv parents seqOf tip base s) {top : RankEntry C}
    (mem : top ∈ s.heap) (max : ∀ e ∈ s.heap, e.number ≤ top.number)
    (vis : s.hidden top.commit = false) (outside : ¬ Reaches parents base top.commit) :
    FrontierInv parents seqOf tip base (emitVisible { s with heap := s.heap.erase top } top.commit) where
  heapNodup := I.heapNodup.sublist (List.erase_sublist.map _)
  heapNumber e he := I.heapNumber e (List.mem_of_mem_erase he)
  heapEnqueued e he := I.heapEnqueued e (List.mem_of_mem_erase he)
  reached := I.reached
  hiddenBelowBase := I.hiddenBelowBase
  baseHidden := I.baseHidden
  baseEnqueued := I.baseEnqueued
  tipEnqueued := I.tipEnqueued
  poppedAbove x hx := I.poppedAbove_erase mem max x ((popped_erase I mem).mp hx)
  queued x := by
    simp only [emitVisible]
    rw [mem_commits_erase I.heapNodup mem]
    by_cases hx : x = top.commit
    · subst hx
      simp
    · simp [hx, I.queued x]
  pending := by
    simp only [emitVisible]
    rw [List.countP_erase, I.pending]
    simp [mem, vis]
  outIff x := by
    rw [popped_emitVisible, popped_erase I mem]
    simp only [emitVisible]
    by_cases hx : x = top.commit
    · subst hx
      simp [vis]
    · simp [hx, I.outIff x]
  outNodup := by
    simp only [emitVisible]
    refine List.nodup_append.mpr ⟨I.outNodup, List.nodup_singleton _, ?_⟩
    intro a ha b hb same
    rw [List.mem_singleton.mp hb] at same
    exact not_popped_of_mem mem (same ▸ ((I.outIff a).mp ha).1)
  outOutside x hx := by
    rcases List.mem_append.mp hx with hx | hx
    · exact I.outOutside x hx
    · rw [List.mem_singleton.mp hx]
      exact outside
  outOrder x p hp hx hpo := by
    simp only [emitVisible] at hx hpo ⊢
    rcases List.mem_append.mp hx with hx | hx
    · rcases List.mem_append.mp hpo with hpo | hpo
      · exact (I.outOrder x p hp hx hpo).trans (List.sublist_append_left _ _)
      · rw [List.mem_singleton.mp hpo]
        exact (List.singleton_sublist.mpr hx).append (List.Sublist.refl [top.commit])
    -- the popped commit's parents rank below it, so none of them is emitted yet
    rw [List.mem_singleton.mp hx] at hp
    have earlier : Popped s p ∨ p = top.commit := by
      rcases List.mem_append.mp hpo with hpo | hpo
      · exact .inl ((I.outIff p).mp hpo).1
      · exact .inr (List.mem_singleton.mp hpo)
    exact absurd (I.parent_below falls mem hp p earlier) (lt_irrefl _)

/-- One pop keeps the invariant, and the popped commit joins the popped ones. -/
theorem RangeInv.step (I : RangeInv parents seqOf tip base s) {top : RankEntry C}
    {rest : List (RankEntry C)} (hp : heapPop s.heap = some (top, rest)) :
    RangeInv parents seqOf tip base (rankedStep parents seqOf { s with heap := rest } top.commit) ∧
      ∀ x, Popped (rankedStep parents seqOf { s with heap := rest } top.commit) x ↔
        Popped s x ∨ x = top.commit := by
  obtain ⟨mem, rfl, max⟩ := heapPop_spec hp
  have popped1 := fun x => popped_erase (x := x) I.toFrontierInv mem
  have below := fun {p} (hp : p ∈ parents top.commit) => I.parent_below falls mem hp
  cases hid : s.hidden top.commit with
  | true =>
    -- a hidden pop: every parent is hidden and enqueued
    rw [rankedStep_hidden hid]
    have reach p (hp : p ∈ parents top.commit) : Reaches parents base p :=
      (I.hiddenBelowBase _ hid).tail hp
    have I1 := I.popHidden mem max hid
    have kept := foldl_keeps (Josh.hideParent seqOf) (fun t x => Popped t x)
      (fun _ _ _ => popped_hideParent)
      (parents top.commit) { s with heap := s.heap.erase top }
    have hidden2 := foldl_marks (Josh.hideParent seqOf) (fun t x => t.hidden x = true)
      (fun _ _ _ => hidden_hideParent)
      (parents top.commit) { s with heap := s.heap.erase top }
    have enq2 := foldl_marks (Josh.hideParent seqOf) (fun t x => t.enqueued x = true)
      (fun _ _ _ => enqueued_hideParent) (parents top.commit) { s with heap := s.heap.erase top }
    refine ⟨⟨I1.foldl_hideParent reach fun p hp x hx => below hp x ((popped1 x).mp hx), ?_⟩,
      fun x => (kept x).trans (popped1 x)⟩
    intro x hx
    rcases (popped1 x).mp ((kept x).mp hx) with hx | rfl
    · -- an earlier pop keeps its marks; it ranks above the parents now hidden
      refine (I.parentsMarked x hx).mono (fun c hc => (enq2 c).mpr (.inl hc))
        (fun c hc => (hidden2 c).mpr (.inl hc)) fun hx2 => ?_
      rcases (hidden2 x).mp hx2 with h | h
      · exact h
      · exact absurd (below h x (.inl hx)) (lt_irrefl _)
    · exact ⟨fun p hp => (enq2 p).mpr (.inr hp), fun _ p hp => (hidden2 p).mpr (.inr hp)⟩
  | false =>
    -- a visible pop: the commit is emitted and its parents enqueued
    rw [rankedStep_visible hid]
    have outside : ¬ Reaches parents base top.commit := fun hb => by
      rw [I.hidden_of_reaches_base falls mem max hb] at hid
      cases hid
    have reach p (hp : p ∈ parents top.commit) :
        Reaches parents tip p ∨ Reaches parents base p :=
      (I.reached _ (I.heapEnqueued top mem)).imp (fun h => h.tail hp) (fun h => h.tail hp)
    have I1 := I.popVisible falls mem max hid outside
    let s1 := emitVisible { s with heap := s.heap.erase top } top.commit
    have kept := foldl_keeps (Josh.visitParent seqOf) (fun t x => Popped t x)
      (fun _ _ _ => popped_visitParent)
      (parents top.commit) s1
    have hidden2 := foldl_keeps (Josh.visitParent seqOf) (fun t x => t.hidden x = true)
      (fun _ _ _ => by rw [hidden_visitParent]) (parents top.commit) s1
    have enq2 := foldl_marks (Josh.visitParent seqOf) (fun t x => t.enqueued x = true)
      (fun _ _ _ => enqueued_visitParent) (parents top.commit) s1
    refine ⟨⟨I1.foldl_visitParent reach fun p hp x hx => below hp x ((popped1 x).mp hx), ?_⟩,
      fun x => (kept x).trans (popped1 x)⟩
    intro x hx
    rcases (popped1 x).mp ((kept x).mp hx) with hx | rfl
    · exact (I.parentsMarked x hx).mono (fun c hc => (enq2 c).mpr (.inl hc))
        (fun c hc => (hidden2 c).mpr hc) (hidden2 x).mp
    · refine ⟨fun p hp => (enq2 p).mpr (.inr hp), fun hx2 => ?_⟩
      have : s.hidden top.commit = true := (hidden2 _).mp hx2
      rw [hid] at this
      cases this

end Falls

/-! ### The loop -/

section Loop

variable [Fintype C]

/-- The commits not popped yet; each pop takes one away. -/
def unpopped (s : RangeState C) : Nat := (Finset.univ.filter fun c => ¬ Popped s c).card

theorem unpopped_pop {t : RangeState C} (h : ∀ x, Popped t x ↔ Popped s x ∨ x = c)
    (fresh : ¬ Popped s c) : unpopped t + 1 = unpopped s := by
  have mem : c ∈ Finset.univ.filter fun x => ¬ Popped s x := by simp [fresh]
  have fewer : (Finset.univ.filter fun x => ¬ Popped t x) =
      (Finset.univ.filter fun x => ¬ Popped s x).erase c := by
    ext x
    simp only [Finset.mem_filter, Finset.mem_univ, true_and, Finset.mem_erase, h x, not_or]
    tauto
  have := Finset.card_pos.mpr ⟨c, mem⟩
  unfold unpopped
  rw [fewer, Finset.card_erase_of_mem mem]
  omega

theorem unpopped_pos {top : RankEntry C} (mem : top ∈ s.heap) : 0 < unpopped s :=
  Finset.card_pos.mpr ⟨top.commit, by simp [not_popped_of_mem mem]⟩

omit [Fintype C] in
theorem rankedLoop_of_pending_zero {fuel : Nat} (h : s.visiblePending = 0) :
    rankedLoop parents seqOf fuel s = some s.out := by
  rw [rankedLoop.eq_def]
  simp [h]

omit [Fintype C] in
theorem rankedLoop_of_empty {fuel : Nat} (h : s.heap = []) :
    rankedLoop parents seqOf fuel s = some s.out := by
  rw [rankedLoop.eq_def]
  simp [h, heapPop]

omit [Fintype C] in
theorem rankedLoop_pop {fuel : Nat} {top : RankEntry C} {rest : List (RankEntry C)}
    (h : s.visiblePending ≠ 0) (hp : heapPop s.heap = some (top, rest)) :
    rankedLoop parents seqOf (fuel + 1) s =
      rankedLoop parents seqOf fuel (rankedStep parents seqOf { s with heap := rest } top.commit) := by
  rw [rankedLoop.eq_def]
  simp [h, hp]

omit [Fintype C] in
/- When the loop stops, only hidden entries are left on the frontier. -/
theorem RangeInv.loop_stops (I : RangeInv parents seqOf tip base s) {fuel : Nat}
    (stop : s.visiblePending = 0 ∨ s.heap = []) :
    ∃ t, RangeInv parents seqOf tip base t ∧ (∀ e ∈ t.heap, t.hidden e.commit = true) ∧
      rankedLoop parents seqOf fuel s = some t.out := by
  refine ⟨s, I, ?_, ?_⟩
  · rcases stop with h | h
    · rw [I.pending, List.countP_eq_zero] at h
      intro e he
      simpa using h e he
    · rw [h]
      intro e he
      cases he
  · rcases stop with h | h
    · exact rankedLoop_of_pending_zero h
    · exact rankedLoop_of_empty h

/-- Given a pop for each commit not yet popped, the loop stops in a state that keeps the
invariant, with only hidden entries left. -/
theorem RangeInv.loop (falls : ∀ c p, p ∈ parents c → seqOf p < seqOf c) {fuel : Nat}
    (I : RangeInv parents seqOf tip base s) (bound : unpopped s ≤ fuel) :
    ∃ t, RangeInv parents seqOf tip base t ∧ (∀ e ∈ t.heap, t.hidden e.commit = true) ∧
      rankedLoop parents seqOf fuel s = some t.out := by
  induction fuel generalizing s with
  | zero =>
    by_cases stop : s.visiblePending = 0 ∨ s.heap = []
    · exact I.loop_stops stop
    · -- an entry is left to pop, so a commit is not popped yet
      obtain ⟨e, he⟩ := List.exists_mem_of_ne_nil s.heap (not_or.mp stop).2
      have := unpopped_pos he
      omega
  | succ fuel ih =>
    by_cases stop : s.visiblePending = 0 ∨ s.heap = []
    · exact I.loop_stops stop
    obtain ⟨pending, nonempty⟩ := not_or.mp stop
    obtain ⟨⟨top, rest⟩, hp⟩ := Option.ne_none_iff_exists'.mp (mt heapPop_eq_none.mp nonempty)
    obtain ⟨next, popped⟩ := I.step falls hp
    have fewer := unpopped_pop popped (not_popped_of_mem (heapPop_spec hp).1)
    obtain ⟨t, final, stopped, run⟩ := ih next (by omega)
    exact ⟨t, final, stopped, by rw [rankedLoop_pop pending hp, run]⟩

end Loop

/-! ### The start and the end of the ranked walk -/

/- The walk starts with the tip pending as visible and the base hidden, nothing popped. -/
theorem rankedStart_eq (ne : tip ≠ base) :
    rankedStart seqOf tip base =
      ⟨fun c => decide (c = base), Function.update (Function.update (fun _ => false) tip true) base true,
        Function.update (fun _ => false) tip true, [⟨seqOf base, 1, base⟩, ⟨seqOf tip, 0, tip⟩], 2,
        1, []⟩ := by
  simp [rankedStart, Josh.enqueue, ne]

theorem not_popped_rankedStart (ne : tip ≠ base) : ¬ Popped (rankedStart seqOf tip base) x := by
  rw [rankedStart_eq ne]
  by_cases hb : x = base <;> by_cases ht : x = tip <;> simp [Popped, hb, ht]

theorem rangeInv_start (ne : tip ≠ base) :
    RangeInv parents seqOf tip base (rankedStart seqOf tip base) := by
  have unpopped x : ¬ Popped (rankedStart seqOf tip base) x := not_popped_rankedStart ne
  rw [rankedStart_eq ne] at unpopped ⊢
  refine ⟨⟨?heapNodup, ?heapNumber, ?heapEnqueued, ?reached, ?hidden, ?baseHidden, ?baseEnqueued,
    ?tipEnqueued, fun x hx => absurd hx (unpopped x), ?queued, ?pending, ?outIff, List.nodup_nil,
    fun _ h => (by cases h), fun _ _ _ h => (by cases h)⟩, fun x hx => absurd hx (unpopped x)⟩
  case heapNodup => simpa using Ne.symm ne
  case heapNumber => simp
  case heapEnqueued => simp [ne]
  case reached =>
    intro x hx
    by_cases hb : x = base
    · exact .inr (hb ▸ Reaches.refl x)
    · by_cases ht : x = tip
      · exact .inl (ht ▸ Reaches.refl x)
      · simp [hb, ht] at hx
  case hidden =>
    intro x hx
    rw [of_decide_eq_true hx]
    exact Reaches.refl _
  case baseHidden => simp
  case baseEnqueued => simp
  case tipEnqueued => simp [ne]
  case queued =>
    intro x
    by_cases ht : x = tip
    · subst ht
      simp [ne]
    · simp [ht]
  case pending => simp [ne]
  case outIff => exact fun x => ⟨fun h => (by cases h), fun h => absurd h.1 (unpopped x)⟩

theorem unpopped_rankedStart [Fintype C] (ne : tip ≠ base) :
    unpopped (rankedStart seqOf tip base) = Fintype.card C := by
  unfold unpopped
  rw [Finset.filter_true_of_mem fun x _ => not_popped_rankedStart ne, Finset.card_univ]

omit [DecidableEq C] in
/- What is emitted lies in the range: it was reached from the tip or the base, and is no
ancestor of the base. -/
theorem RangeInv.range_of_mem_out (I : RangeInv parents seqOf tip base s) (hx : x ∈ s.out) :
    Reaches parents tip x ∧ ¬ Reaches parents base x := by
  have outside := I.outOutside x hx
  refine ⟨?_, outside⟩
  rcases I.reached x ((I.outIff x).mp hx).1.1 with h | h
  · exact h
  · exact absurd h outside

omit [DecidableEq C] in
/- Once only hidden entries are left, the whole range is emitted: along a path from the tip
that avoids the base's ancestors every commit is popped visible and enqueues the next. -/
theorem RangeInv.mem_out_of_range (I : RangeInv parents seqOf tip base s)
    (stopped : ∀ e ∈ s.heap, s.hidden e.commit = true) (reach : Reaches parents tip x)
    (outside : ¬ Reaches parents base x) : x ∈ s.out := by
  have visible : ∀ w, s.enqueued w = true → ¬ Reaches parents base w →
      Popped s w ∧ s.hidden w = false := by
    intro w enq notBelow
    have hw : s.hidden w = false := by
      cases h : s.hidden w
      · rfl
      · exact absurd (I.hiddenBelowBase w h) notBelow
    refine ⟨⟨enq, fun inHeap => ?_⟩, hw⟩
    obtain ⟨e, he, rfl⟩ := List.mem_map.mp inHeap
    rw [stopped e he] at hw
    cases hw
  have path : ∀ w, Reaches parents tip w → ¬ Reaches parents base w →
      Popped s w ∧ s.hidden w = false := by
    intro w hw
    unfold Reaches at hw
    induction hw with
    | refl => exact visible tip I.tipEnqueued
    | @tail u w _ edge ih =>
      intro notBelow
      have popped := (ih fun hu => notBelow (hu.tail edge)).1
      exact visible w ((I.parentsMarked u popped).1 w edge) notBelow
  exact (I.outIff x).mpr (path x reach outside)

/-- The ranked walk from a tip other than the base returns the range, given a pop for each
commit. -/
theorem rankedWalk_spec [Fintype C] (falls : ∀ c p, p ∈ parents c → seqOf p < seqOf c)
    (ne : tip ≠ base) :
    ∃ order, rankedWalk parents seqOf (Fintype.card C) tip base = some order ∧
      IsRange parents tip base order := by
  have start : RangeInv parents seqOf tip base (rankedStart seqOf tip base) := rangeInv_start ne
  obtain ⟨t, I, stopped, run⟩ := start.loop falls (unpopped_rankedStart ne).le
  refine ⟨t.out, run, I.outNodup, fun c => ⟨I.range_of_mem_out, ?_⟩, I.outOrder⟩
  rintro ⟨reach, outside⟩
  exact I.mem_out_of_range stopped reach outside

end Invariant

/-! ### The fast path -/

section FastForward

variable {C : Type*} [DecidableEq C] {parents : C → List C} {seqOf : C → Nat}
  (falls : ∀ c p, p ∈ parents c → seqOf p < seqOf c)
include falls

/-- A chain the fast path finds ends in the base, and what it adds to the output is the range
from its first commit: the base is an ancestor of every commit of the chain, so none of them is
an ancestor of the base. -/
theorem fastForwardWalk_spec {base : C} : ∀ (n : Nat) (c : C) (out chain : List C),
    fastForwardWalk parents base n c out = some chain →
      Reaches parents c base ∧ ∃ path, chain = out ++ path ∧ IsRange parents c base path := by
  intro n
  induction n with
  | zero =>
    intro c out chain h
    cases h
  | succ n ih =>
    intro c out chain h
    by_cases atBase : c = base
    · subst atBase
      simp only [fastForwardWalk, if_true, Option.some.injEq] at h
      subst h
      refine ⟨.refl c, [], by simp, List.nodup_nil, fun x => ?_, fun _ _ _ h => (by cases h)⟩
      simp
    cases hp : parents c with
    | nil => simp [fastForwardWalk, atBase, hp] at h
    | cons p ps =>
      cases ps with
      | cons _ _ => simp [fastForwardWalk, atBase, hp] at h
      | nil =>
        have edge : p ∈ parents c := by
          rw [hp]
          exact List.mem_singleton_self p
        simp only [fastForwardWalk, atBase, if_false, hp] at h
        obtain ⟨toBase, path, rfl, nodup, range, order⟩ := ih p (out ++ [c]) chain h
        -- the chain's first commit ranks above everything reachable from its parent
        have above : ∀ x, Reaches parents p x → seqOf x < seqOf c :=
          fun x hx => lt_of_le_of_lt (hx.rank_le falls) (falls c p edge)
        have fresh : c ∉ path := fun hc => lt_irrefl _ (above c ((range c).mp hc).1)
        refine ⟨.parent edge toBase, c :: path, by simp, List.nodup_cons.mpr ⟨fresh, nodup⟩,
          fun x => ?_, ?_⟩
        · have step : Reaches parents c x ↔ x = c ∨ Reaches parents p x := by
            rw [reaches_iff, hp]
            simp
          rw [List.mem_cons, range x, step]
          constructor
          · rintro (same | ⟨reach, outside⟩)
            · refine ⟨.inl same, fun hb => atBase ?_⟩
              rw [same] at hb
              exact Reaches.antisymm falls (.parent edge toBase) hb
            · exact ⟨.inr reach, outside⟩
          · rintro ⟨same | reach, outside⟩
            · exact .inl same
            · exact .inr ⟨reach, outside⟩
        · intro a q hq ha hqo
          rcases List.mem_cons.mp ha with ha | ha
          · -- the first commit's only parent heads the rest of the chain
            rw [ha, hp, List.mem_singleton] at hq
            rw [ha, hq]
            rcases List.mem_cons.mp hqo with same | hqo
            · have := falls c p edge
              rw [← hq, same] at this
              exact absurd this (lt_irrefl _)
            · rw [hq] at hqo
              exact (List.singleton_sublist.mpr hqo).cons_cons c
          rcases List.mem_cons.mp hqo with hqo | hqo
          · -- the first commit is no parent of a later one, which ranks below it
            rw [hqo] at hq
            exact absurd (falls _ _ hq) (not_lt.mpr (above a ((range a).mp ha).1).le)
          · exact (order a q hq ha hqo).cons c

end FastForward

/-! ### `into_topo_vec` -/

/-- `RangeWalk::into_topo_vec` returns git's `base..tip` exactly: each commit reachable from the
tip and not from the base once, nothing else, and every commit before its parents, whether the
fast path or the ranked walk answers. The sequence numbers must fall along every parent edge. -/
theorem range_walk_returns_base_tip {C : Type*} [DecidableEq C] [Fintype C]
    {parents : C → List C} {seqOf : C → Nat} (falls : ∀ c p, p ∈ parents c → seqOf p < seqOf c)
    (tip base : C) :
    ∃ order, RangeWalk.intoTopoVec parents seqOf tip base = some order ∧ order.Nodup ∧
      (∀ c, c ∈ order ↔ Reaches parents tip c ∧ ¬ Reaches parents base c) ∧
      ∀ c p, p ∈ parents c → c ∈ order → p ∈ order → [c, p].Sublist order := by
  unfold RangeWalk.intoTopoVec
  by_cases same : tip = base
  · subst same
    refine ⟨[], if_pos rfl, List.nodup_nil, fun c => ?_, fun _ _ _ h => (by cases h)⟩
    simp
  rw [if_neg same]
  cases fast : fastForwardWalk parents base fastForwardProbeLimit tip [] with
  | some chain =>
    obtain ⟨-, path, chained, range⟩ := fastForwardWalk_spec falls _ _ _ _ fast
    rw [chained, List.nil_append]
    exact ⟨path, rfl, range⟩
  | none =>
    obtain ⟨order, run, range⟩ := rankedWalk_spec falls same
    exact ⟨order, run, range⟩

/- Off the tip's first parent: the merge tip `0` over the base `1`, whose side `2` joins the
base's parent `3`. The range is the tip and its side parent. -/
example : RangeWalk.intoTopoVec
    (fun c : Fin 4 => if c = 0 then [1, 2] else if c = 3 then [] else [3])
    (fun c => 3 - c.val) 0 1 = some [0, 2] := by
  decide

theorem range_walk_on_merge :
    let parents : Fin 4 → List (Fin 4) := fun c =>
      if c = 0 then [1, 2] else if c = 3 then [] else [3]
    (∀ c p, p ∈ parents c → 3 - p.val < 3 - c.val) ∧ ∃ order,
      RangeWalk.intoTopoVec parents (fun c => 3 - c.val) 0 1 = some order ∧ order.Nodup ∧
        (∀ c, c ∈ order ↔ Reaches parents 0 c ∧ ¬ Reaches parents 1 c) ∧
        ∀ c p, p ∈ parents c → c ∈ order → p ∈ order → [c, p].Sublist order := by
  intro parents
  have falls : ∀ c p, p ∈ parents c → 3 - p.val < 3 - c.val := by decide
  exact ⟨falls, range_walk_returns_base_tip falls 0 1⟩

end Josh
