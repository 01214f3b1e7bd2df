import Josh.Cache.HistoryGraph
import Josh.Walk.Reach
import Mathlib.Data.Finset.Sort
import Josh.Lib.Option

/-! The history-graph cache of `josh-core/src/cache/history_graph.rs`: `ensure_hint_cached` with
its fast path, its pruned walk and its store loop, `derive_from_parents` with the roots blob,
`parents_share_root`, and `is_ancestor_of` of `josh-core/src/filter/mod.rs` with its
sequence-number shortcut and its `ANCESTORS` map. A roots blob is named here by its content, the
sorted root oids it concatenates: with no SHA-1 collision a blob's oid fixes its bytes, so two
parents agree on the blob oid exactly when they agree on the roots. -/

namespace Josh

/- The two cache slots a commit's hint is kept in, `sequence_number()` and `reachable_roots()`,
as `try_read_cached_hint` reads them: together, or not at all. -/
abbrev HintCache (C : Type*) := C → Option (HistoryGraphHint × List C)

section Model

variable {C : Type*} [LinearOrder C]

/- `store_hint`: both slots of one commit. -/
def storeHint (cache : HintCache C) (input : C) (hint : HistoryGraphHint × List C) :
    HintCache C :=
  Function.update cache input (some hint)

/- A parent's sequence number and roots blob, as the walk reads them. -/
def cachedSeqBlob (cache : HintCache C) (p : C) : Option (Nat × List C) :=
  (cache p).map fun e => (e.1.sequenceNumber, e.2)

/- `derive_from_parents`: a parentless commit is its own only root; any other gets the hint of
`deriveHint`, and the roots blob its parents share, or, when their blobs differ, a new blob of
the union of their roots, sorted as a `BTreeSet` iterates. -/
def deriveFromParents (self : C) (parentsHint : List (Nat × List C)) :
    HistoryGraphHint × List C :=
  match parentsHint with
  | [] => (deriveHint [], [self])
  | (_, firstBlob) :: _ =>
    let rootsBlob :=
      if parentsHint.all fun (_, b) => b = firstBlob then firstBlob
      else ((parentsHint.map fun e : Nat × List C => e.2.toFinset).foldl (· ∪ ·) ∅).sort (· ≤ ·)
    (deriveHint (parentsHint.map (·.1)), rootsBlob)

variable (parents : C → List C)

/- The loop after the walk, parents first: each commit's hint from its parents', which must all
be cached by then. -/
def storeWalk : HintCache C → List C → Except String Unit × HintCache C
  | cache, [] => (.ok (), cache)
  | cache, oid :: rest =>
    match (parents oid).mapM (cachedSeqBlob cache) with
    | none => (.error "parent hint missing during walk", cache)
    | some parentsHint => storeWalk (storeHint cache oid (deriveFromParents oid parentsHint)) rest

variable [Fintype C]

/- The walk of `ensure_hint_cached`: a `RevWalk` from the input that prunes the commits with
both slots cached. The walk runs until its stack is empty; its fuel is the bound `dfsMeasure`
shows enough. -/
def hintWalk (cache : HintCache C) (input : C) : Option (List C) :=
  intoTopoVec parents false (fun c => (cache c).isSome)
    (dfsMeasure parents false ⟨[input].map .explore, [], []⟩) [input]

/- `ensure_hint_cached`: the cached hint; else, when every parent is cached, the hint derived
from theirs; else a walk over the commits not yet cached, stored parents first. The commits of
the model all exist, so the `odb.contains` check always passes. -/
def ensureHintCached (cache : HintCache C) (input : C) :
    Except String (HistoryGraphHint × List C) × HintCache C :=
  match cache input with
  | some hint => (.ok hint, cache)
  | none =>
    match (parents input).mapM (cachedSeqBlob cache) with
    | some parentsHint =>
      let hint := deriveFromParents input parentsHint
      (.ok hint, storeHint cache input hint)
    | none =>
      match hintWalk parents cache input with
      | none => (.error "walk did not finish", cache)
      | some sorted =>
        match storeWalk parents cache sorted.reverse with
        | (.error e, cache') => (.error e, cache')
        | (.ok (), cache') =>
          match cache' input with
          | some hint => (.ok hint, cache')
          | none => (.error "missing graph info after walk", cache')

/- `compute_sequence_number`. -/
def computeSequenceNumber (cache : HintCache C) (input : C) : Except String Nat × HintCache C :=
  let (r, cache') := ensureHintCached parents cache input
  (r.map (·.1.sequenceNumber), cache')

/- `collect_history_graph_info`: the sequence number and the roots the blob lists. -/
def collectHistoryGraphInfo (cache : HintCache C) (input : C) :
    Except String (Nat × List C) × HintCache C :=
  let (r, cache') := ensureHintCached parents cache input
  (r.map fun e => (e.1.sequenceNumber, e.2), cache')

/- The blobs of `parents_share_root`'s parents, each hint ensured in turn; the first error
stops the collection. -/
def ensureBlobs : HintCache C → List C → Except String (List (List C)) × HintCache C
  | cache, [] => (.ok [], cache)
  | cache, p :: ps =>
    match ensureHintCached parents cache p with
    | (.error e, cache') => (.error e, cache')
    | (.ok (_, blob), cache') =>
      match ensureBlobs cache' ps with
      | (.error e, cache'') => (.error e, cache'')
      | (.ok blobs, cache'') => (.ok (blob :: blobs), cache'')

/- The intersection loop of `parents_share_root`: it answers false as soon as the common roots
run out. -/
def commonRootsNonempty : Finset C → List (List C) → Bool
  | common, [] => decide (common ≠ ∅)
  | common, blob :: rest =>
    if common = ∅ then false else commonRootsNonempty (common ∩ blob.toFinset) rest

/- `parents_share_root`. A parent id is `none` for the zero oid, which names no commit. -/
def parentsShareRoot (cache : HintCache C) (parentIds : List (Option C)) :
    Except String Bool × HintCache C :=
  if parentIds.isEmpty || parentIds.any (· = none) then (.ok false, cache)
  else
    match ensureBlobs parents cache (parentIds.filterMap id) with
    | (.error e, cache') => (.error e, cache')
    | (.ok [], cache') => (.ok false, cache')
    | (.ok (firstBlob :: rest), cache') =>
      if (firstBlob :: rest).all (· = firstBlob) then (.ok true, cache')
      else (.ok (commonRootsNonempty firstBlob.toFinset rest), cache')

/- The loop of `is_ancestor_of` that collects a tip's ancestors: `todo` is the stack, top first,
and a parent is pushed when it is newly inserted into the set. -/
def pushNewParents (ps : List C) (todo ancestors : List C) : List C × List C :=
  ps.foldl (fun (todo, ancestors) p =>
    if p ∈ ancestors then (todo, ancestors) else (p :: todo, p :: ancestors)) (todo, ancestors)

def collectAncestors : Nat → List C → List C → Option (List C)
  | _, [], ancestors => some ancestors
  | 0, _ :: _, _ => none
  | fuel + 1, commit :: todo, ancestors =>
    let (todo', ancestors') := pushNewParents (parents commit) todo ancestors
    collectAncestors fuel todo' ancestors'

/- The cache state the calls of this module share: the hint slots of the transaction and the
process-wide `ANCESTORS` map from a tip to its ancestors. -/
structure HistoryState (C : Type*) where
  hints : HintCache C
  ancestors : C → Option (List C)

/- `is_ancestor_of`: false when the commit's sequence number is above the tip's (only when the
tip's could be computed), else whether the commit is among the tip's ancestors, collected once
per tip. The collection runs until its stack is empty; each round pops one commit, and every
commit is pushed at most once. -/
def isAncestorOf (s : HistoryState C) (commit tip : C) : Except String Bool × HistoryState C :=
  let lookup (hints : HintCache C) : Except String Bool × HistoryState C :=
    match s.ancestors tip with
    | some ancestors => (.ok (decide (commit ∈ ancestors)), ⟨hints, s.ancestors⟩)
    | none =>
      match collectAncestors parents (Fintype.card C) [tip] [tip] with
      | none => (.error "ancestor walk did not finish", ⟨hints, s.ancestors⟩)
      | some ancestors =>
        (.ok (decide (commit ∈ ancestors)),
          ⟨hints, Function.update s.ancestors tip (some ancestors)⟩)
  match computeSequenceNumber parents s.hints tip with
  | (.ok tipSeq, hints) =>
    match computeSequenceNumber parents hints commit with
    | (.error e, hints') => (.error e, ⟨hints', s.ancestors⟩)
    | (.ok commitSeq, hints') =>
      if commitSeq > tipSeq then (.ok false, ⟨hints', s.ancestors⟩) else lookup hints'
  | (.error _, hints) => lookup hints

/- The calls that fill the cache. -/
inductive HistoryCall (C : Type*) where
  | sequenceNumber (input : C)
  | graphInfo (input : C)
  | shareRoot (parentIds : List (Option C))
  | ancestor (commit tip : C)

/- The state a call leaves behind, whatever it returns. -/
def HistoryCall.run (s : HistoryState C) : HistoryCall C → HistoryState C
  | .sequenceNumber input => ⟨(computeSequenceNumber parents s.hints input).2, s.ancestors⟩
  | .graphInfo input => ⟨(collectHistoryGraphInfo parents s.hints input).2, s.ancestors⟩
  | .shareRoot parentIds => ⟨(parentsShareRoot parents s.hints parentIds).2, s.ancestors⟩
  | .ancestor commit tip => (isAncestorOf parents s commit tip).2

def runCalls (s : HistoryState C) (calls : List (HistoryCall C)) : HistoryState C :=
  calls.foldl (HistoryCall.run parents) s

end Model

/-! ### What `derive_from_parents` makes -/

section Derive

variable {C : Type*} [LinearOrder C]

theorem mem_foldl_union {x : C} :
    ∀ (l : List (Finset C)) (s : Finset C), x ∈ l.foldl (· ∪ ·) s ↔ x ∈ s ∨ ∃ t ∈ l, x ∈ t
  | [], s => by simp
  | t :: l, s => by
    rw [List.foldl_cons, mem_foldl_union l, Finset.mem_union]
    simp only [List.mem_cons, exists_eq_or_imp]
    tauto

theorem deriveFromParents_fst (self : C) (qs : List (Nat × List C)) :
    (deriveFromParents self qs).1 = deriveHint (qs.map (·.1)) := by
  cases qs <;> rfl

theorem deriveFromParents_nil (self : C) : (deriveFromParents self []).2 = [self] := rfl

/- With parents, the roots blob lists the union of the parents' roots, whichever branch
makes it. -/
theorem mem_deriveFromParents_cons {self x : C} {q : Nat × List C} {qs : List (Nat × List C)} :
    x ∈ (deriveFromParents self (q :: qs)).2 ↔ ∃ e ∈ q :: qs, x ∈ e.2 := by
  simp only [deriveFromParents]
  split_ifs with same
  · -- the parents share the first blob
    constructor
    · exact fun hx => ⟨q, List.mem_cons_self, hx⟩
    · rintro ⟨e, he, hx⟩
      have shared := List.all_eq_true.mp same e he
      simp only [decide_eq_true_eq] at shared
      rwa [shared] at hx
  · rw [Finset.mem_sort, mem_foldl_union]
    simp

/- The roots blob is sorted without duplicates when the parents' blobs are. -/
theorem deriveFromParents_sorted {self : C} {qs : List (Nat × List C)}
    (h : ∀ e ∈ qs, e.2.Pairwise (· < ·)) : (deriveFromParents self qs).2.Pairwise (· < ·) := by
  match qs with
  | [] => exact List.pairwise_singleton _ self
  | q :: qs =>
    simp only [deriveFromParents]
    split_ifs
    · exact h q List.mem_cons_self
    · -- a `BTreeSet` iterates in increasing order, each root once
      exact ((Finset.pairwise_sort _ _).and (Finset.sort_nodup _ _)).imp
        fun ⟨le, ne⟩ => lt_of_le_of_ne le ne

end Derive

/-! ### Exact cache entries -/

section Exact

variable {C : Type*} [LinearOrder C] (parents : C → List C)

/- Every cached entry is what `derive_from_parents` makes of its parents' cached entries. -/
def CacheExact (cache : HintCache C) : Prop :=
  ∀ c e, cache c = some e →
    ∃ ps, (parents c).mapM (cachedSeqBlob cache) = some ps ∧ e = deriveFromParents c ps

variable {parents} {cache : HintCache C}

theorem storeHint_self (cache : HintCache C) (c : C) (x : HistoryGraphHint × List C) :
    storeHint cache c x c = some x :=
  Function.update_self c _ cache

theorem storeHint_of_ne (cache : HintCache C) {c d : C} (x : HistoryGraphHint × List C)
    (h : d ≠ c) : storeHint cache c x d = cache d :=
  Function.update_of_ne h _ cache

theorem isSome_cachedSeqBlob (cache : HintCache C) (p : C) :
    (cachedSeqBlob cache p).isSome = (cache p).isSome := by
  simp [cachedSeqBlob]

/- A commit whose parents' read succeeds has every parent cached. -/
theorem parents_cached_of_mapM {c : C} {ps : List (Nat × List C)}
    (h : (parents c).mapM (cachedSeqBlob cache) = some ps) :
    ∀ p ∈ parents c, (cache p).isSome := by
  have all := Option.isSome_mapM_iff.mp (by rw [h]; rfl)
  intro p hp
  rw [← isSome_cachedSeqBlob]
  exact all p hp

theorem CacheExact.parents_cached (ex : CacheExact parents cache) {c : C} {e}
    (h : cache c = some e) : ∀ p ∈ parents c, (cache p).isSome := by
  obtain ⟨ps, hps, _⟩ := ex c e h
  exact parents_cached_of_mapM hps

/- Storing at an uncached commit leaves the read of a commit's parents as it was, when they
are all cached. -/
theorem mapM_storeHint {c d : C} {x : HistoryGraphHint × List C} (fresh : cache c = none)
    (cached : ∀ p ∈ parents d, (cache p).isSome) :
    (parents d).mapM (cachedSeqBlob (storeHint cache c x)) =
      (parents d).mapM (cachedSeqBlob cache) := by
  refine Option.mapM_congr_of_mem fun p hp => ?_
  have ne : p ≠ c := by
    rintro rfl
    have := cached p hp
    rw [fresh] at this
    cases this
  simp only [cachedSeqBlob, storeHint_of_ne _ _ ne]

/- Storing the derived entry of an uncached commit whose parents are cached keeps the cache
exact. -/
theorem CacheExact.store (ex : CacheExact parents cache) {c : C} {ps : List (Nat × List C)}
    (fresh : cache c = none) (h : (parents c).mapM (cachedSeqBlob cache) = some ps) :
    CacheExact parents (storeHint cache c (deriveFromParents c ps)) := by
  intro d e hd
  by_cases same : d = c
  · subst same
    rw [storeHint_self] at hd
    obtain rfl := Option.some.inj hd
    exact ⟨ps, by rw [mapM_storeHint fresh (parents_cached_of_mapM h)]; exact h, rfl⟩
  · rw [storeHint_of_ne _ _ same] at hd
    obtain ⟨ps', hps', he⟩ := ex d e hd
    exact ⟨ps', by rw [mapM_storeHint fresh (parents_cached_of_mapM hps')]; exact hps', he⟩

/- A cached entry's sequence number is above every parent's and, for a commit with parents, one
past some parent's; a parentless commit's is zero. -/
theorem CacheExact.sequenceNumber (ex : CacheExact parents cache) {c : C} {e}
    (hc : cache c = some e) :
    (∀ p ∈ parents c, ∃ ep, cache p = some ep ∧ ep.1.sequenceNumber < e.1.sequenceNumber) ∧
      (parents c = [] → e.1.sequenceNumber = 0) ∧
      (parents c ≠ [] → ∃ p ∈ parents c, ∃ ep, cache p = some ep ∧
        e.1.sequenceNumber = ep.1.sequenceNumber + 1) := by
  obtain ⟨ps, hps, rfl⟩ := ex c e hc
  rw [deriveFromParents_fst]
  refine ⟨fun p hp => ?_, fun root => ?_, fun nonroot => ?_⟩
  · obtain ⟨q, hq, hpq⟩ := Option.exists_mem_of_mapM hps hp
    obtain ⟨ep, hep, rfl⟩ := Option.map_eq_some_iff.mp hpq
    exact ⟨ep, hep, lt_deriveHint_sequenceNumber (List.mem_map_of_mem hq)⟩
  · rw [root, List.mapM_nil] at hps
    obtain rfl := Option.some.inj hps
    rfl
  · have lengths := (Option.mapM_forall₂ hps).length_eq
    have some : ps.map (·.1) ≠ [] := by
      intro none
      rw [List.map_eq_nil_iff] at none
      rw [none, List.length_nil, List.length_eq_zero_iff] at lengths
      exact nonroot lengths
    obtain ⟨s, hs, hsucc⟩ := exists_deriveHint_sequenceNumber some
    obtain ⟨q, hq, rfl⟩ := List.mem_map.mp hs
    obtain ⟨p, hp, hpq⟩ := Option.exists_of_mem_mapM hps hq
    obtain ⟨ep, hep, rfl⟩ := Option.map_eq_some_iff.mp hpq
    exact ⟨p, hp, ep, hep, hsucc⟩

/- The ancestors of a cached commit are cached, with sequence numbers no higher. -/
theorem CacheExact.sequenceNumber_le (ex : CacheExact parents cache) {t c : C} {et}
    (ht : cache t = some et) (h : Reaches parents t c) :
    ∃ ec, cache c = some ec ∧ ec.1.sequenceNumber ≤ et.1.sequenceNumber := by
  induction h with
  | refl => exact ⟨et, ht, le_rfl⟩
  | tail _ edge ih =>
    obtain ⟨eb, hb, le⟩ := ih
    obtain ⟨ec, hc, lt⟩ := (ex.sequenceNumber hb).1 _ edge
    exact ⟨ec, hc, (Nat.le_of_lt lt).trans le⟩

/- A cached roots blob lists, sorted and without duplicates, exactly the parentless commits the
commit reaches. By induction up the parent relation, which a finite acyclic graph founds. -/
theorem CacheExact.roots [Finite C] (dag : Acyclic parents) (ex : CacheExact parents cache)
    (c : C) : ∀ e, cache c = some e →
      e.2.Pairwise (· < ·) ∧ ∀ r, r ∈ e.2 ↔ parents r = [] ∧ Reaches parents c r := by
  induction c using dag.wellFounded.induction with
  | _ c ih =>
  intro e hc
  obtain ⟨ps, hps, rfl⟩ := ex c e hc
  -- each parent's pair is read from its exact entry
  have parentEntry : ∀ q ∈ ps, ∃ p ∈ parents c, ∃ ep, cache p = some ep ∧ q.2 = ep.2 := by
    intro q hq
    obtain ⟨p, hp, hpq⟩ := Option.exists_of_mem_mapM hps hq
    obtain ⟨ep, hep, rfl⟩ := Option.map_eq_some_iff.mp hpq
    exact ⟨p, hp, ep, hep, rfl⟩
  refine ⟨deriveFromParents_sorted fun q hq => ?_, fun r => ?_⟩
  · obtain ⟨p, hp, ep, hep, same⟩ := parentEntry q hq
    rw [same]
    exact (ih p hp ep hep).1
  cases hroot : parents c with
  | nil =>
    rw [hroot, List.mapM_nil] at hps
    obtain rfl := Option.some.inj hps
    rw [deriveFromParents_nil, List.mem_singleton]
    constructor
    · rintro rfl
      exact ⟨hroot, .refl r⟩
    · exact fun ⟨_, reach⟩ => reaches_of_root hroot reach
  | cons p₀ rest =>
    have nonroot : parents c ≠ [] := by rw [hroot]; exact List.cons_ne_nil p₀ rest
    obtain ⟨q, qs, rfl⟩ : ∃ q qs, ps = q :: qs := by
      have lengths := (Option.mapM_forall₂ hps).length_eq
      rw [hroot] at lengths
      cases ps with
      | nil => cases lengths
      | cons q qs => exact ⟨q, qs, rfl⟩
    rw [mem_deriveFromParents_cons]
    constructor
    · rintro ⟨q', hq', hr⟩
      obtain ⟨p, hp, ep, hep, hq'ep⟩ := parentEntry q' hq'
      rw [hq'ep] at hr
      obtain ⟨root, reach⟩ := ((ih p hp ep hep).2 r).mp hr
      exact ⟨root, .parent hp reach⟩
    · rintro ⟨root, reach⟩
      rcases reaches_iff.mp reach with rfl | ⟨p, hp, reach⟩
      · exact absurd root nonroot
      obtain ⟨q', hq', hpq⟩ := Option.exists_mem_of_mapM hps hp
      obtain ⟨ep, hep, rfl⟩ := Option.map_eq_some_iff.mp hpq
      exact ⟨_, hq', ((ih p hp ep hep).2 r).mpr ⟨root, reach⟩⟩

end Exact

/-! ### `ensure_hint_cached` -/

section Ensure

variable {C : Type*} [LinearOrder C] {parents : C → List C}

variable (parents) in
/- The order the store loop needs: each commit's parents cached already, or earlier in the
list. -/
def WalkReady (cache : HintCache C) (l : List C) : Prop :=
  ∀ x ∈ l, ∀ p ∈ parents x, (cache p).isSome ∨ [p, x].Sublist l

theorem pair_sublist_cons {p x y : C} {l : List C} (h : [p, y].Sublist (x :: l)) :
    [p, y].Sublist l ∨ p = x ∧ y ∈ l := by
  rcases List.sublist_cons_iff.mp h with h | ⟨r, hr, sub⟩
  · exact .inl h
  · obtain ⟨rfl, rfl⟩ := List.cons_eq_cons.mp hr
    exact .inr ⟨rfl, List.singleton_sublist.mp sub⟩

/- The store loop over a ready list of distinct uncached commits stores every one of them and
keeps the cache exact and its earlier entries. -/
theorem storeWalk_spec : ∀ (l : List C) (cache : HintCache C), CacheExact parents cache →
    l.Nodup → (∀ x ∈ l, cache x = none) → WalkReady parents cache l →
    ∃ cache', storeWalk parents cache l = (.ok (), cache') ∧ CacheExact parents cache' ∧
      (∀ x ∈ l, (cache' x).isSome) ∧ ∀ d e, cache d = some e → cache' d = some e
  | [], cache, ex, _, _, _ => ⟨cache, rfl, ex, by simp, fun _ _ h => h⟩
  | x :: rest, cache, ex, nodup, fresh, ready => by
    obtain ⟨notLater, nodup⟩ := List.nodup_cons.mp nodup
    -- the head's parents are all cached: none of them can come after it
    have cached : ∀ p ∈ parents x, (cachedSeqBlob cache p).isSome := by
      intro p hp
      rw [isSome_cachedSeqBlob]
      rcases ready x List.mem_cons_self p hp with cached | sub
      · exact cached
      rcases pair_sublist_cons sub with sub | ⟨_, later⟩
      · exact absurd (sub.subset (List.mem_cons_of_mem p List.mem_cons_self)) notLater
      · exact absurd later notLater
    obtain ⟨ps, hps⟩ := Option.isSome_iff_exists.mp (Option.isSome_mapM_iff.mpr cached)
    have xFresh := fresh x List.mem_cons_self
    have kept : ∀ d e, cache d = some e → storeHint cache x (deriveFromParents x ps) d = some e := by
      intro d e hd
      rw [storeHint_of_ne _ _ (by rintro rfl; rw [xFresh] at hd; cases hd)]
      exact hd
    have ready' : WalkReady parents (storeHint cache x (deriveFromParents x ps)) rest := by
      intro y hy p hp
      rcases ready y (List.mem_cons_of_mem x hy) p hp with cached | sub
      · obtain ⟨e, he⟩ := Option.isSome_iff_exists.mp cached
        exact .inl (by rw [kept p e he]; rfl)
      rcases pair_sublist_cons sub with sub | ⟨rfl, _⟩
      · exact .inr sub
      · exact .inl (by rw [storeHint_self]; rfl)
    obtain ⟨cache', run, ex', stored, kept'⟩ :=
      storeWalk_spec rest _ (ex.store xFresh hps) nodup
        (fun y hy => by
          have ne : y ≠ x := by
            rintro rfl
            exact notLater hy
          rw [storeHint_of_ne _ _ ne]
          exact fresh y (List.mem_cons_of_mem x hy))
        ready'
    refine ⟨cache', by simp only [storeWalk, hps, run], ex', ?_, fun d e hd => kept' d e (kept d e hd)⟩
    intro y hy
    rcases List.mem_cons.mp hy with rfl | hy
    · rw [kept' y _ (storeHint_self cache y _)]
      rfl
    · exact stored y hy

/- From an exact cache, `ensure_hint_cached` returns the input's entry, now cached, and leaves
the cache exact with its earlier entries kept. -/
theorem ensureHintCached_spec [Fintype C] (dag : Acyclic parents) {cache : HintCache C}
    (ex : CacheExact parents cache) (input : C) :
    ∃ e cache', ensureHintCached parents cache input = (.ok e, cache') ∧ cache' input = some e ∧
      CacheExact parents cache' ∧ ∀ d e', cache d = some e' → cache' d = some e' := by
  cases hin : cache input with
  | some e => exact ⟨e, cache, by simp [ensureHintCached, hin], hin, ex, fun _ _ h => h⟩
  | none =>
    cases hps : (parents input).mapM (cachedSeqBlob cache) with
    | some ps =>
      -- the fast path: every parent is cached
      refine ⟨_, _, by simp [ensureHintCached, hin, hps], storeHint_self _ _ _, ex.store hin hps, ?_⟩
      intro d e hd
      rw [storeHint_of_ne _ _ (by rintro rfl; rw [hin] at hd; cases hd)]
      exact hd
    | none =>
      -- the walk: every commit reached through uncached ones, children first
      obtain ⟨order, walk, nodup, reached, ordered⟩ :=
        intoTopoVec_spec dag false (fun c => (cache c).isSome) [input] (le_refl _)
      have uncached : ∀ x ∈ order, cache x = none := by
        intro x hx
        simpa using ((reached x).mp hx).not_pruned
      have ready : WalkReady parents cache order.reverse := by
        intro x hx p hp
        rw [List.mem_reverse] at hx
        cases hp' : cache p with
        | some ep => exact .inl rfl
        | none =>
          -- an uncached parent is reached too, and comes after the commit in the walk
          have hpo : p ∈ order := (reached p).mpr (.parent ((reached x).mp hx) hp (by simp [hp']))
          exact .inr (List.reverse_sublist.mpr (ordered x p hp hx hpo))
      obtain ⟨cache', run, ex', stored, kept⟩ :=
        storeWalk_spec order.reverse cache ex (List.nodup_reverse.mpr nodup)
          (fun x hx => uncached x (List.mem_reverse.mp hx)) ready
      have inputReached : input ∈ order :=
        (reached input).mpr (.tip List.mem_cons_self (by simp [hin]))
      obtain ⟨e, he⟩ :=
        Option.isSome_iff_exists.mp (stored input (List.mem_reverse.mpr inputReached))
      have walked : hintWalk parents cache input = some order := walk
      refine ⟨e, cache', ?_, he, ex', kept⟩
      simp only [ensureHintCached, hin, hps, walked, run, he]

end Ensure

/-! ### `parents_share_root` -/

section ShareRoot

variable {C : Type*} [LinearOrder C] {parents : C → List C}

variable (parents) in
/- Commits with a common ancestor. -/
def ShareAncestor (cs : List C) : Prop := ∃ a, ∀ c ∈ cs, Reaches parents c a

/- In a finite acyclic graph, commits share an ancestor exactly when they share a root. -/
theorem shareAncestor_iff_root [Finite C] (dag : Acyclic parents) {cs : List C} :
    ShareAncestor parents cs ↔ ∃ r, parents r = [] ∧ ∀ c ∈ cs, Reaches parents c r := by
  constructor
  · rintro ⟨a, common⟩
    obtain ⟨r, root, reach⟩ := dag.exists_root a
    exact ⟨r, root, fun c hc => Relation.ReflTransGen.trans (common c hc) reach⟩
  · rintro ⟨r, _, common⟩
    exact ⟨r, common⟩

theorem ensureBlobs_spec [Fintype C] (dag : Acyclic parents) :
    ∀ (cs : List C) (cache : HintCache C), CacheExact parents cache →
      ∃ blobs cache', ensureBlobs parents cache cs = (.ok blobs, cache') ∧
        CacheExact parents cache' ∧
        List.Forall₂ (fun c b => ∃ e, cache' c = some e ∧ e.2 = b) cs blobs ∧
        ∀ d e, cache d = some e → cache' d = some e
  | [], cache, ex => ⟨[], cache, rfl, ex, .nil, fun _ _ h => h⟩
  | c :: cs, cache, ex => by
    obtain ⟨e, cache₁, ensured, hc, ex₁, kept₁⟩ := ensureHintCached_spec dag ex c
    obtain ⟨blobs, cache₂, rest, ex₂, paired, kept₂⟩ := ensureBlobs_spec dag cs cache₁ ex₁
    refine ⟨e.2 :: blobs, cache₂, ?_, ex₂, .cons ⟨e, kept₂ c e hc, rfl⟩ paired,
      fun d e hd => kept₂ d e (kept₁ d e hd)⟩
    simp only [ensureBlobs, ensured, rest]

/- The intersection loop answers whether some root of the first set is in every later blob. -/
theorem commonRootsNonempty_iff :
    ∀ (common : Finset C) (blobs : List (List C)),
      commonRootsNonempty common blobs = true ↔ ∃ r ∈ common, ∀ b ∈ blobs, r ∈ b
  | common, [] => by
    simp [commonRootsNonempty, Finset.nonempty_iff_ne_empty.symm, Finset.Nonempty]
  | common, b :: rest => by
    rw [commonRootsNonempty]
    split_ifs with empty
    · simp [empty]
    · rw [commonRootsNonempty_iff]
      simp only [Finset.mem_inter, List.mem_toFinset, List.forall_mem_cons]
      constructor
      · rintro ⟨r, ⟨hr, hb⟩, hrest⟩
        exact ⟨r, hr, hb, hrest⟩
      · rintro ⟨r, hr, hb, hrest⟩
        exact ⟨r, ⟨hr, hb⟩, hrest⟩

/- Blobs paired with exact roots: a root is in all of them exactly when every commit reaches
it. -/
theorem forall_mem_blobs_iff {r : C} :
    ∀ {cs : List C} {blobs : List (List C)},
      List.Forall₂ (fun c b => ∀ r, r ∈ b ↔ parents r = [] ∧ Reaches parents c r) cs blobs →
      parents r = [] → ((∀ b ∈ blobs, r ∈ b) ↔ ∀ c ∈ cs, Reaches parents c r)
  | _, _, .nil, _ => by simp
  | _, _, .cons exact rest, root => by
    simp only [List.forall_mem_cons, exact r, forall_mem_blobs_iff rest root, root, true_and]

theorem eq_map_some_of_ne_none :
    ∀ {l : List (Option C)}, (∀ p ∈ l, p ≠ none) → l = (l.filterMap id).map some
  | [], _ => rfl
  | none :: _, h => absurd rfl (h none List.mem_cons_self)
  | some c :: l, h => by
    rw [List.filterMap_cons_some, List.map_cons,
      ← eq_map_some_of_ne_none fun p hp => h p (List.mem_cons_of_mem _ hp)]
    rfl

/- From an exact cache, `parents_share_root` answers whether the parents, at least one and none
the zero oid, share an ancestor, and leaves the cache exact with its earlier entries kept. -/
theorem parentsShareRoot_spec [Fintype C] (dag : Acyclic parents) {cache : HintCache C}
    (ex : CacheExact parents cache) (parentIds : List (Option C)) :
    ∃ b cache', parentsShareRoot parents cache parentIds = (.ok b, cache') ∧
      (b = true ↔ parentIds ≠ [] ∧ ∃ cs, parentIds = cs.map some ∧ ShareAncestor parents cs) ∧
      CacheExact parents cache' ∧ ∀ d e, cache d = some e → cache' d = some e := by
  by_cases guard : (parentIds.isEmpty || parentIds.any (· = none)) = true
  · -- no parent, or the zero oid among them
    refine ⟨false, cache, by simp only [parentsShareRoot, guard, if_true], ?_, ex,
      fun _ _ h => h⟩
    simp only [Bool.false_eq_true, false_iff, not_and, not_exists]
    rintro nonempty cs rfl _
    simp only [List.isEmpty_iff, List.map_eq_nil_iff, List.any_map, Bool.or_eq_true,
      List.any_eq_true] at guard
    rcases guard with empty | ⟨c, _, zero⟩
    · exact nonempty (by rw [empty]; rfl)
    · simp at zero
  obtain ⟨nonempty, real⟩ : parentIds ≠ [] ∧ ∀ p ∈ parentIds, p ≠ none := by
    simp only [Bool.or_eq_true, List.isEmpty_iff, List.any_eq_true, not_or, not_exists,
      not_and] at guard
    exact ⟨guard.1, fun p hp zero => guard.2 p hp (by simp [zero])⟩
  have ids := eq_map_some_of_ne_none real
  obtain ⟨c₀, cs', split⟩ : ∃ c₀ cs', parentIds.filterMap id = c₀ :: cs' := by
    cases hcs : parentIds.filterMap id with
    | nil => exact absurd (by rw [ids, hcs]; rfl) nonempty
    | cons c₀ cs' => exact ⟨c₀, cs', rfl⟩
  rw [split] at ids
  obtain ⟨blobs, cache', ensured, ex', paired, kept⟩ := ensureBlobs_spec dag (c₀ :: cs') cache ex
  -- each blob lists the roots of its parent
  have roots : List.Forall₂ (fun c b => ∀ r, r ∈ b ↔ parents r = [] ∧ Reaches parents c r)
      (c₀ :: cs') blobs :=
    paired.imp fun c b ⟨e, he, hb⟩ => hb ▸ (ex'.roots dag c e he).2
  obtain ⟨first, rest, rfl, firstRoots, restRoots⟩ : ∃ first rest, blobs = first :: rest ∧
      (∀ r, r ∈ first ↔ parents r = [] ∧ Reaches parents c₀ r) ∧
      List.Forall₂ (fun c b => ∀ r, r ∈ b ↔ parents r = [] ∧ Reaches parents c r) cs' rest := by
    cases roots with
    | cons hfirst hrest => exact ⟨_, _, rfl, hfirst, hrest⟩
  -- a root of the first parent in every later blob is a common ancestor, and back
  have common : (∃ r ∈ first, ∀ b ∈ rest, r ∈ b) ↔ ShareAncestor parents (c₀ :: cs') := by
    rw [shareAncestor_iff_root dag]
    constructor
    · rintro ⟨r, hr, inRest⟩
      obtain ⟨root, reach⟩ := (firstRoots r).mp hr
      exact ⟨r, root, List.forall_mem_cons.mpr ⟨reach, (forall_mem_blobs_iff restRoots root).mp inRest⟩⟩
    · rintro ⟨r, root, reach⟩
      obtain ⟨reach₀, reachRest⟩ := List.forall_mem_cons.mp reach
      exact ⟨r, (firstRoots r).mpr ⟨root, reach₀⟩, (forall_mem_blobs_iff restRoots root).mpr reachRest⟩
  have answer : ∀ b, (b = true ↔ ShareAncestor parents (c₀ :: cs')) →
      (b = true ↔ parentIds ≠ [] ∧ ∃ cs, parentIds = cs.map some ∧ ShareAncestor parents cs) := by
    intro b hb
    rw [hb]
    constructor
    · exact fun share => ⟨nonempty, c₀ :: cs', ids, share⟩
    · rintro ⟨_, cs'', hcs'', share⟩
      have : cs'' = c₀ :: cs' :=
        List.map_injective_iff.mpr (Option.some_injective C) (hcs''.symm.trans ids)
      exact this ▸ share
  by_cases same : ((first :: rest).all (· = first)) = true
  · -- one blob for all: the first parent's root is common
    refine ⟨true, cache', ?_, answer true ⟨fun _ => common.mp ?_, fun _ => rfl⟩, ex', kept⟩
    · rw [parentsShareRoot, if_neg guard, split, ensured]
      simp only [same, if_true]
    · obtain ⟨r, root, reach⟩ := dag.exists_root c₀
      refine ⟨r, (firstRoots r).mpr ⟨root, reach⟩, fun b hb => ?_⟩
      have shared := List.all_eq_true.mp same b (List.mem_cons_of_mem first hb)
      rw [of_decide_eq_true shared]
      exact (firstRoots r).mpr ⟨root, reach⟩
  · refine ⟨commonRootsNonempty first.toFinset rest, cache', ?_,
      answer _ ((commonRootsNonempty_iff _ _).trans ?_), ex', kept⟩
    · rw [parentsShareRoot, if_neg guard, split, ensured]
      simp only [same, Bool.false_eq_true, if_false]
    · simp only [List.mem_toFinset]
      exact common

end ShareRoot

/-! ### `is_ancestor_of` -/

section Ancestors

variable {C : Type*} [LinearOrder C] {parents : C → List C}

/- The inner loop pushes, in reverse, the parents it newly inserts, and leaves every parent in
the set. -/
theorem pushNewParents_spec : ∀ (ps todo ancestors : List C), ancestors.Nodup →
    ∃ new, pushNewParents ps todo ancestors = (new ++ todo, new ++ ancestors) ∧
      (new ++ ancestors).Nodup ∧ (∀ x ∈ new, x ∈ ps) ∧ ∀ p ∈ ps, p ∈ new ++ ancestors
  | [], todo, ancestors, nodup => ⟨[], rfl, nodup, by simp, by simp⟩
  | p :: ps, todo, ancestors, nodup => by
    by_cases seen : p ∈ ancestors
    · obtain ⟨new, run, nodup', fromPs, all⟩ := pushNewParents_spec ps todo ancestors nodup
      refine ⟨new, by simpa [pushNewParents, seen] using run, nodup',
        fun x hx => List.mem_cons_of_mem p (fromPs x hx), ?_⟩
      rintro q (_ | ⟨_, hq⟩)
      · exact List.mem_append_right new seen
      · exact all q hq
    · obtain ⟨new, run, nodup', fromPs, all⟩ :=
        pushNewParents_spec ps (p :: todo) (p :: ancestors) (List.nodup_cons.mpr ⟨seen, nodup⟩)
      refine ⟨new ++ [p], by simpa [pushNewParents, seen] using run,
        by simpa using nodup', ?_, ?_⟩
      · intro x hx
        rcases List.mem_append.mp hx with hx | hx
        · exact List.mem_cons_of_mem p (fromPs x hx)
        · rw [List.mem_singleton.mp hx]
          exact List.mem_cons_self
      · rintro q (_ | ⟨_, hq⟩)
        · simp
        · simpa using all q hq

variable (parents) in
/- What holds between rounds of the ancestor collection: the stack is part of the set, the set
is reached from the tip, and every commit of the set off the stack has its parents in it. -/
structure AncestorsInv (tip : C) (todo ancestors : List C) : Prop where
  tip_mem : tip ∈ ancestors
  todo_sub : ∀ x ∈ todo, x ∈ ancestors
  reached : ∀ x ∈ ancestors, Reaches parents tip x
  closed : ∀ x ∈ ancestors, x ∉ todo → ∀ p ∈ parents x, p ∈ ancestors
  nodup : ancestors.Nodup
  todoNodup : todo.Nodup

theorem ancestorsInv_start (tip : C) : AncestorsInv parents tip [tip] [tip] where
  tip_mem := List.mem_singleton_self tip
  todo_sub _ h := h
  reached x h := by
    rw [List.mem_singleton.mp h]
    exact .refl tip
  closed _ h notTodo := absurd h notTodo
  nodup := List.nodup_singleton tip
  todoNodup := List.nodup_singleton tip

/- One round keeps the invariant. -/
theorem AncestorsInv.step {tip commit : C} {todo ancestors : List C}
    (inv : AncestorsInv parents tip (commit :: todo) ancestors) :
    ∃ new, pushNewParents (parents commit) todo ancestors = (new ++ todo, new ++ ancestors) ∧
      AncestorsInv parents tip (new ++ todo) (new ++ ancestors) := by
  obtain ⟨new, run, nodup, fromParents, all⟩ :=
    pushNewParents_spec (parents commit) todo ancestors inv.nodup
  have commitMem := inv.todo_sub commit List.mem_cons_self
  have fresh : ∀ x ∈ new, x ∉ ancestors := fun x hx =>
    List.disjoint_of_nodup_append nodup hx
  obtain ⟨commitNew, todoNodup⟩ := List.nodup_cons.mp inv.todoNodup
  refine ⟨new, run, ⟨List.mem_append_right new inv.tip_mem, ?_, ?_, ?_, nodup, ?_⟩⟩
  · intro x hx
    rcases List.mem_append.mp hx with hx | hx
    · exact List.mem_append_left _ hx
    · exact List.mem_append_right _ (inv.todo_sub x (List.mem_cons_of_mem commit hx))
  · intro x hx
    rcases List.mem_append.mp hx with hx | hx
    · -- a new parent of a reached commit
      exact Relation.ReflTransGen.tail (inv.reached commit commitMem) (fromParents x hx)
    · exact inv.reached x hx
  · intro x hx notTodo p hp
    rcases List.mem_append.mp hx with hx | hx
    · exact absurd (List.mem_append_left todo hx) notTodo
    by_cases popped : x = commit
    · -- the commit of this round has all its parents in the set now
      rw [popped] at hp
      exact all p hp
    · have off : x ∉ commit :: todo := by
        rintro (_ | ⟨_, h⟩)
        · exact popped rfl
        · exact notTodo (List.mem_append_right new h)
      exact List.mem_append_right new (inv.closed x hx off p hp)
  · refine List.nodup_append.mpr ⟨(List.nodup_append.mp nodup).1, todoNodup, ?_⟩
    intro x hx y hy same
    subst same
    exact fresh x hx (inv.todo_sub x (List.mem_cons_of_mem commit hy))

/- The collection stops within its fuel and returns exactly the tip's ancestors: each round
pops one commit, and every commit is pushed at most once. -/
theorem collectAncestors_spec [Fintype C] {tip : C} : ∀ (fuel : Nat) (todo ancestors : List C),
    AncestorsInv parents tip todo ancestors →
    Fintype.card C - ancestors.length + todo.length ≤ fuel →
    ∃ result, collectAncestors parents fuel todo ancestors = some result ∧
      ∀ c, c ∈ result ↔ Reaches parents tip c
  | fuel, [], ancestors, inv, _ => by
    refine ⟨ancestors, by cases fuel <;> rfl, fun c => ⟨inv.reached c, fun reach => ?_⟩⟩
    -- a set closed under parents that holds the tip holds all it reaches
    induction reach with
    | refl => exact inv.tip_mem
    | tail _ edge ih => exact inv.closed _ ih List.not_mem_nil _ edge
  | 0, commit :: todo, ancestors, inv, bound => by
    have := inv.nodup.length_le_card
    simp only [List.length_cons] at bound
    omega
  | fuel + 1, commit :: todo, ancestors, inv, bound => by
    obtain ⟨new, run, inv'⟩ := inv.step
    have room := inv'.nodup.length_le_card
    obtain ⟨result, collected, exact⟩ := collectAncestors_spec fuel _ _ inv' (by
      simp only [List.length_append, List.length_cons] at bound room ⊢
      omega)
    exact ⟨result, by simp only [collectAncestors, run, collected], exact⟩

variable (parents) in
/- Every entry of the `ANCESTORS` map is its tip's set of ancestors. -/
def AncestorsExact (ancestors : C → Option (List C)) : Prop :=
  ∀ tip l, ancestors tip = some l → ∀ c, c ∈ l ↔ Reaches parents tip c

variable (parents) in
/- Both caches exact. -/
structure StateExact (s : HistoryState C) : Prop where
  hints : CacheExact parents s.hints
  ancestors : AncestorsExact parents s.ancestors

theorem computeSequenceNumber_spec [Fintype C] (dag : Acyclic parents) {cache : HintCache C}
    (ex : CacheExact parents cache) (input : C) :
    ∃ e cache', computeSequenceNumber parents cache input = (.ok e.1.sequenceNumber, cache') ∧
      cache' input = some e ∧ CacheExact parents cache' ∧
      ∀ d e', cache d = some e' → cache' d = some e' := by
  obtain ⟨e, cache', ensured, he, ex', kept⟩ := ensureHintCached_spec dag ex input
  exact ⟨e, cache', by simp only [computeSequenceNumber, ensured]; rfl, he, ex', kept⟩

/- From exact caches, `is_ancestor_of` answers whether the tip reaches the commit: the
sequence-number shortcut only rejects a commit above the tip, which no ancestor is. -/
theorem isAncestorOf_spec [Fintype C] (dag : Acyclic parents) {s : HistoryState C}
    (ex : StateExact parents s) (commit tip : C) :
    ∃ b s', isAncestorOf parents s commit tip = (.ok b, s') ∧
      (b = true ↔ Reaches parents tip commit) ∧ StateExact parents s' ∧
      ∀ d e, s.hints d = some e → s'.hints d = some e := by
  obtain ⟨et, hints₁, seqTip, ht, ex₁, kept₁⟩ := computeSequenceNumber_spec dag ex.hints tip
  obtain ⟨ec, hints₂, seqCommit, hc, ex₂, kept₂⟩ := computeSequenceNumber_spec dag ex₁ commit
  have kept : ∀ d e, s.hints d = some e → hints₂ d = some e :=
    fun d e hd => kept₂ d e (kept₁ d e hd)
  by_cases above : ec.1.sequenceNumber > et.1.sequenceNumber
  · -- the shortcut: an ancestor's sequence number is never above its descendant's
    refine ⟨false, ⟨hints₂, s.ancestors⟩, ?_, ?_, ⟨ex₂, ex.ancestors⟩, kept⟩
    · simp only [isAncestorOf, seqTip, seqCommit, above, if_true]
    · simp only [Bool.false_eq_true, false_iff]
      intro reach
      obtain ⟨ec', hc', le⟩ := ex₂.sequenceNumber_le (kept₂ tip et ht) reach
      rw [hc] at hc'
      obtain rfl := Option.some.inj hc'
      omega
  cases hmap : s.ancestors tip with
  | some l =>
    refine ⟨decide (commit ∈ l), ⟨hints₂, s.ancestors⟩, ?_, ?_, ⟨ex₂, ex.ancestors⟩, kept⟩
    · simp only [isAncestorOf, seqTip, seqCommit, above, if_false, hmap]
    · rw [decide_eq_true_iff]
      exact ex.ancestors tip l hmap commit
  | none =>
    have bound : Fintype.card C - [tip].length + [tip].length ≤ Fintype.card C := by
      have := Fintype.card_pos_iff.mpr ⟨tip⟩
      simp only [List.length_singleton]
      omega
    have start : AncestorsInv parents tip [tip] [tip] := ancestorsInv_start tip
    obtain ⟨result, collected, exact⟩ :=
      collectAncestors_spec (Fintype.card C) [tip] [tip] start bound
    refine ⟨decide (commit ∈ result),
      ⟨hints₂, Function.update s.ancestors tip (some result)⟩, ?_, ?_, ⟨ex₂, ?_⟩, kept⟩
    · simp only [isAncestorOf, seqTip, seqCommit, above, if_false, hmap, collected]
    · rw [decide_eq_true_iff]
      exact exact commit
    · intro t l ht
      dsimp only at ht
      by_cases same : t = tip
      · subst same
        rw [Function.update_self] at ht
        obtain rfl := Option.some.inj ht
        exact exact
      · rw [Function.update_of_ne same] at ht
        exact ex.ancestors t l ht

end Ancestors

/-! ### Every sequence of calls -/

section Run

variable {C : Type*} [LinearOrder C] {parents : C → List C}

variable (parents) in
/- What the cached entry of a commit is meant to be: a sequence number of zero for a root and
one past the largest of its parents' otherwise, and a roots blob that lists, sorted and without
duplicates, the parentless commits it reaches. -/
def EntrySpec (hints : HintCache C) (c : C) (e : HistoryGraphHint × List C) : Prop :=
  (∀ p ∈ parents c, ∃ ep, hints p = some ep ∧ ep.1.sequenceNumber < e.1.sequenceNumber) ∧
    (parents c = [] → e.1.sequenceNumber = 0) ∧
    (parents c ≠ [] → ∃ p ∈ parents c, ∃ ep, hints p = some ep ∧
      e.1.sequenceNumber = ep.1.sequenceNumber + 1) ∧
    e.2.Pairwise (· < ·) ∧ ∀ r, r ∈ e.2 ↔ parents r = [] ∧ Reaches parents c r

theorem CacheExact.entrySpec [Finite C] (dag : Acyclic parents) {cache : HintCache C}
    (ex : CacheExact parents cache) {c : C} {e} (hc : cache c = some e) :
    EntrySpec parents cache c e :=
  let ⟨below, root, above⟩ := ex.sequenceNumber hc
  ⟨below, root, above, ex.roots dag c e hc⟩

theorem stateExact_empty :
    StateExact parents (⟨fun _ => none, fun _ => none⟩ : HistoryState C) where
  hints _ _ h := by cases h
  ancestors _ _ h := by cases h

/- Each call keeps both caches exact. -/
theorem HistoryCall.run_exact [Fintype C] (dag : Acyclic parents) {s : HistoryState C}
    (ex : StateExact parents s) (call : HistoryCall C) :
    StateExact parents (call.run parents s) := by
  cases call with
  | sequenceNumber input =>
    obtain ⟨_, cache', called, _, ex', _⟩ := computeSequenceNumber_spec dag ex.hints input
    simp only [HistoryCall.run, called]
    exact ⟨ex', ex.ancestors⟩
  | graphInfo input =>
    obtain ⟨_, cache', ensured, _, ex', _⟩ := ensureHintCached_spec dag ex.hints input
    simp only [HistoryCall.run, collectHistoryGraphInfo, ensured]
    exact ⟨ex', ex.ancestors⟩
  | shareRoot parentIds =>
    obtain ⟨_, cache', called, _, ex', _⟩ := parentsShareRoot_spec dag ex.hints parentIds
    simp only [HistoryCall.run, called]
    exact ⟨ex', ex.ancestors⟩
  | ancestor commit tip =>
    obtain ⟨_, s', called, _, ex', _⟩ := isAncestorOf_spec dag ex commit tip
    simp only [HistoryCall.run, called]
    exact ex'

theorem runCalls_exact [Fintype C] (dag : Acyclic parents) :
    ∀ (calls : List (HistoryCall C)) {s : HistoryState C}, StateExact parents s →
      StateExact parents (runCalls parents s calls)
  | [], _, ex => ex
  | call :: calls, _, ex => runCalls_exact dag calls (HistoryCall.run_exact dag ex call)

/- After any sequence of calls from empty caches, on a finite commit graph without cycles,
every cached hint is exact, `compute_sequence_number` and `collect_history_graph_info` return
the entry they leave cached, `parents_share_root` answers whether its parents, at least one and
none the zero oid, share an ancestor, and `is_ancestor_of` whether the tip reaches the commit. -/
theorem history_hints_exact_in_any_call_order [Fintype C] (dag : Acyclic parents)
    (calls : List (HistoryCall C)) :
    let s := runCalls parents ⟨fun _ => none, fun _ => none⟩ calls
    (∀ c e, s.hints c = some e → EntrySpec parents s.hints c e) ∧
    (∀ c, ∃ e, (computeSequenceNumber parents s.hints c).1 = .ok e.1.sequenceNumber ∧
      (collectHistoryGraphInfo parents s.hints c).1 = .ok (e.1.sequenceNumber, e.2) ∧
      ((HistoryCall.graphInfo c).run parents s).hints c = some e) ∧
    (∀ parentIds, ∃ b, (parentsShareRoot parents s.hints parentIds).1 = .ok b ∧
      (b = true ↔ parentIds ≠ [] ∧ ∃ cs, parentIds = cs.map some ∧ ShareAncestor parents cs)) ∧
    ∀ commit tip, ∃ b, (isAncestorOf parents s commit tip).1 = .ok b ∧
      (b = true ↔ Reaches parents tip commit) := by
  intro s
  have ex : StateExact parents s := runCalls_exact dag calls stateExact_empty
  refine ⟨fun c e hc => ex.hints.entrySpec dag hc, fun c => ?_, fun parentIds => ?_,
    fun commit tip => ?_⟩
  · obtain ⟨e, cache', ensured, he, _, _⟩ := ensureHintCached_spec dag ex.hints c
    refine ⟨e, ?_, ?_, ?_⟩
    · simp only [computeSequenceNumber, ensured]
      rfl
    · simp only [collectHistoryGraphInfo, ensured]
      rfl
    · simp only [HistoryCall.run, collectHistoryGraphInfo, ensured]
      exact he
  · obtain ⟨b, _, called, answer, _, _⟩ := parentsShareRoot_spec dag ex.hints parentIds
    exact ⟨b, by rw [called], answer⟩
  · obtain ⟨b, _, called, answer, _, _⟩ := isAncestorOf_spec dag ex commit tip
    exact ⟨b, by rw [called], answer⟩

/- A merge of a commit and its own parent: sequence number two, and the one root both parents'
blobs share. -/
example : (collectHistoryGraphInfo (fun c : Fin 3 => if c = 0 then [1, 2] else if c = 1 then [2]
    else []) (fun _ => none) 0).1 = .ok (2, [2]) := by
  decide

theorem history_hints_exact_on_two_commits :
    let parents : Fin 2 → List (Fin 2) := fun c => if c = 0 then [1] else []
    let s := runCalls parents ⟨fun _ => none, fun _ => none⟩ [.sequenceNumber 0]
    Acyclic parents ∧
    (∀ c e, s.hints c = some e → EntrySpec parents s.hints c e) ∧
    (∀ c, ∃ e, (computeSequenceNumber parents s.hints c).1 = .ok e.1.sequenceNumber ∧
      (collectHistoryGraphInfo parents s.hints c).1 = .ok (e.1.sequenceNumber, e.2) ∧
      ((HistoryCall.graphInfo c).run parents s).hints c = some e) ∧
    (∀ parentIds, ∃ b, (parentsShareRoot parents s.hints parentIds).1 = .ok b ∧
      (b = true ↔ parentIds ≠ [] ∧ ∃ cs, parentIds = cs.map some ∧ ShareAncestor parents cs)) ∧
    ∀ commit tip, ∃ b, (isAncestorOf parents s commit tip).1 = .ok b ∧
      (b = true ↔ Reaches parents tip commit) := by
  intro parents s
  have dag : Acyclic parents := acyclic_of_rank (fun c => 1 - c.val) (by decide)
  exact ⟨dag, history_hints_exact_in_any_call_order dag [.sequenceNumber 0]⟩

end Run

end Josh
