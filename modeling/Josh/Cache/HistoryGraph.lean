import Josh.Cache.Backend
import Mathlib.Data.List.Chain
import Mathlib.Order.MinMax

/-! The history-graph hints of `josh-core/src/cache/history_graph.rs`: the hint a commit gets
from its parents' sequence numbers, and the bound the sample points of `backend.rs` put on
every walk along parent edges. -/

namespace Josh

/- `derive_from_parents`, its hint: the sequence number one past the largest of the parents',
the parent count saturated to a byte, and the distance to the farther of the first two
parents saturated at 127. -/
def deriveHint : List Nat → HistoryGraphHint
  | [] => ⟨0, 0, 0⟩
  | parentSeqs@(s₀ :: rest) =>
    let seq := parentSeqs.max?.getD 0 + 1
    let d₀ := seq - s₀
    let jumpDelta :=
      match rest with
      | s₁ :: _ => if seq - s₁ > d₀ then min (seq - s₁) 127 else min d₀ 127
      | [] => min d₀ 127
    ⟨seq, min parentSeqs.length 255, jumpDelta⟩

section Graph

variable {C : Type*} (parents : C → List C) (hint : C → HistoryGraphHint)

/- The hints of a commit graph are exact when each is the one its parents' hints give. -/
def ExactHints : Prop :=
  ∀ c, hint c = deriveHint ((parents c).map fun p => (hint p).sequenceNumber)

end Graph

theorem deriveHint_nil_isSamplePoint : (deriveHint []).isSamplePoint := rfl

theorem lt_deriveHint_sequenceNumber {ss : List Nat} {s : Nat} (hs : s ∈ ss) :
    s < (deriveHint ss).sequenceNumber := by
  match ss, hs with
  | _ :: _, hs => exact Nat.lt_succ_of_le (List.le_max?_getD_of_mem hs)

/- With a parent, the sequence number is one past some parent's. -/
theorem exists_deriveHint_sequenceNumber {ss : List Nat} (hs : ss ≠ []) :
    ∃ s ∈ ss, (deriveHint ss).sequenceNumber = s + 1 := by
  match ss, hs with
  | s₀ :: rest, _ =>
    have first : s₀ ∈ s₀ :: rest := List.mem_cons_self
    obtain ⟨m, hm⟩ := Option.isSome_iff_exists.mp (List.isSome_max?_of_mem first)
    refine ⟨m, List.max?_mem hm, ?_⟩
    show (s₀ :: rest).max?.getD 0 + 1 = m + 1
    rw [hm]
    rfl

theorem deriveHint_parentCount (ss : List Nat) :
    (deriveHint ss).parentCount = min ss.length 255 := by
  cases ss <;> rfl

/- One parent: the sequence number is one past the parent's. -/
theorem deriveHint_singleton (s : Nat) : (deriveHint [s]).sequenceNumber = s + 1 := rfl

/- Two parents: the jump covers the distance to each, saturated at 127. -/
theorem deriveHint_pair_jump (s₀ s₁ : Nat) :
    min ((deriveHint [s₀, s₁]).sequenceNumber - s₀) 127 ≤ (deriveHint [s₀, s₁]).jumpDelta ∧
      min ((deriveHint [s₀, s₁]).sequenceNumber - s₁) 127 ≤ (deriveHint [s₀, s₁]).jumpDelta := by
  show _ ≤ (if _ then _ else _) ∧ _ ≤ (if _ then _ else _)
  split
  case isTrue farther => exact ⟨min_le_min_right 127 (Nat.le_of_lt farther), le_rfl⟩
  case isFalse nearer => exact ⟨le_rfl, min_le_min_right 127 (Nat.le_of_not_lt nearer)⟩

/- What a commit that is not a sample point is: off the hundreds, with one parent or with two
whose jump stays within its hundred. -/
theorem HistoryGraphHint.not_isSamplePoint {h : HistoryGraphHint} (hs : h.isSamplePoint = false) :
    h.sequenceNumber % sampleInterval ≠ 0 ∧
      (h.parentCount = 1 ∨
        h.parentCount = 2 ∧ crossesSampleBoundary h.sequenceNumber h.jumpDelta = false) := by
  unfold isSamplePoint at hs
  split_ifs at hs with onHundred
  refine ⟨onHundred, ?_⟩
  split at hs
  · exact .inl ‹_›
  · exact .inr ⟨‹_›, hs⟩
  · cases hs

/- A parent of a commit that is not a sample point is in the same hundred, below it. -/
theorem deriveHint_parent_within_hundred {ss : List Nat} {s : Nat} (hs : s ∈ ss)
    (off : (deriveHint ss).isSamplePoint = false) :
    s < (deriveHint ss).sequenceNumber ∧
      s / sampleInterval = (deriveHint ss).sequenceNumber / sampleInterval := by
  have below := lt_deriveHint_sequenceNumber hs
  refine ⟨below, ?_⟩
  obtain ⟨offHundred, one | ⟨two, within⟩⟩ := HistoryGraphHint.not_isSamplePoint off
  · -- one parent, one below
    have single : ss.length = 1 := by rw [deriveHint_parentCount] at one; omega
    obtain ⟨s₀, rfl⟩ := List.length_eq_one_iff.mp single
    rw [List.mem_singleton.mp hs, deriveHint_singleton] at *
    simp only [sampleInterval] at *
    omega
  · -- two parents, both within the jump, which stays in the hundred
    have pair : ss.length = 2 := by rw [deriveHint_parentCount] at two; omega
    obtain ⟨s₀, s₁, rfl⟩ := List.length_eq_two.mp pair
    have jump := deriveHint_pair_jump s₀ s₁
    have near : min ((deriveHint [s₀, s₁]).sequenceNumber - s) 127 ≤
        (deriveHint [s₀, s₁]).jumpDelta := by
      rcases List.mem_pair.mp hs with rfl | rfl
      exacts [jump.1, jump.2]
    rw [crossesSampleBoundary, decide_eq_false_iff_not] at within
    simp only [sampleInterval] at *
    omega

section Walk

variable {C : Type*} {parents : C → List C} {hint : C → HistoryGraphHint}

theorem ExactHints.parent_within_hundred (exact : ExactHints parents hint) {c p : C}
    (hp : p ∈ parents c) (off : (hint c).isSamplePoint = false) :
    (hint p).sequenceNumber < (hint c).sequenceNumber ∧
      (hint p).sequenceNumber / sampleInterval = (hint c).sequenceNumber / sampleInterval := by
  rw [exact c] at off ⊢
  exact deriveHint_parent_within_hundred (List.mem_map_of_mem hp) off

theorem ExactHints.root_isSamplePoint (exact : ExactHints parents hint) {c : C}
    (root : parents c = []) : (hint c).isSamplePoint := by
  rw [exact c, root]
  exact deriveHint_nil_isSamplePoint

/- Along a walk none of whose commits is a sample point the sequence numbers fall and stay in
one hundred, so the walk is no longer than the first one's place in its hundred. -/
theorem ExactHints.length_le_of_offSample (exact : ExactHints parents hint) (rest : List C) :
    ∀ {c : C}, (c :: rest).IsChain (fun c p => p ∈ parents c) →
      (∀ d ∈ c :: rest, (hint d).isSamplePoint = false) →
      (c :: rest).length ≤ (hint c).sequenceNumber % sampleInterval := by
  induction rest with
  | nil =>
    intro c _ off
    have offHundred := (HistoryGraphHint.not_isSamplePoint (off c List.mem_cons_self)).1
    simp only [List.length_singleton]
    omega
  | cons p rest ih =>
    intro c walk off
    obtain ⟨edge, walk⟩ := List.isChain_cons_cons.mp walk
    have tail := ih walk fun d hd => off d (List.mem_cons_of_mem c hd)
    obtain ⟨below, same⟩ := exact.parent_within_hundred edge (off c List.mem_cons_self)
    simp only [List.length_cons, sampleInterval] at *
    omega

/- Every walk along parent edges that goes on for a hundred commits, or ends at a commit with no
parent, meets a sample point among its first hundred commits. -/
theorem walk_meets_sample_point (exact : ExactHints parents hint) {path : List C}
    (walk : path.IsChain fun c p => p ∈ parents c)
    (ends : sampleInterval ≤ path.length ∨ ∃ c, path.getLast? = some c ∧ parents c = []) :
    ∃ c ∈ path.take sampleInterval, (hint c).isSamplePoint := by
  by_contra none
  simp only [not_exists, not_and, Bool.not_eq_true] at none
  cases path with
  | nil => simp [sampleInterval] at ends
  | cons c rest =>
    -- the first hundred commits are a walk of commits off the sample points
    have first : (c :: rest).take sampleInterval = c :: rest.take (sampleInterval - 1) := rfl
    have bound := exact.length_le_of_offSample (rest.take (sampleInterval - 1))
      (first ▸ walk.take sampleInterval) (first ▸ none)
    have short : (c :: rest).length < sampleInterval := by
      have := congrArg List.length first
      simp only [List.length_take, List.length_cons, sampleInterval] at *
      omega
    rcases ends with long | ⟨d, last, root⟩
    · omega
    · have whole : (c :: rest).take sampleInterval = c :: rest := List.take_of_length_le short.le
      have mem : d ∈ (c :: rest).take sampleInterval := by
        rw [whole]
        exact List.mem_of_getLast? last
      have sample := exact.root_isSamplePoint root
      rw [none d mem] at sample
      cases sample

theorem linear_history_meets_sample_point :
    ExactHints (fun n => if n = 0 then [] else [n - 1]) (fun n => ⟨n, min n 1, min n 1⟩) ∧
      ∃ c ∈ [3, 2, 1, 0].take sampleInterval,
        (HistoryGraphHint.isSamplePoint ⟨c, min c 1, min c 1⟩) := by
  have exact : ExactHints (fun n => if n = 0 then [] else [n - 1])
      (fun n => ⟨n, min n 1, min n 1⟩) := by
    intro n
    cases n with
    | zero => rfl
    | succ n => simp [deriveHint]
  exact ⟨exact, walk_meets_sample_point exact (by decide) (.inr ⟨0, rfl, rfl⟩)⟩

end Walk

end Josh
