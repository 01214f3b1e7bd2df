import Josh.Cache.Distributed

/-! No record is lost by `DistributedCacheBackend`. Against a store that keeps the last target
written for each filter and commit, every run of writes and flushes keeps each target either in
its shard map or, once flushed, in the tree of its shard's newest pending commit or published
ref, so that `read` returns it, and so does a backend opened afresh after a forced flush. This
holds of writes for filters that no other written filter shares a tree id with, and not of the
two sentinel filters, whose writes the backend drops. -/

namespace Josh

/-! ### What the cache is for -/

/-- One call on the store of last writes. -/
def CacheCall.record (s : Filter → Oid → Option Oid) : CacheCall → Filter → Oid → Option Oid
  | .write filter fromOid toOid _ => fun f x => if f = filter ∧ x = fromOid then some toOid else s f x
  | .flush _ => s

/-- The last target written for each filter and commit. -/
def lastWrite (calls : List CacheCall) : Filter → Oid → Option Oid :=
  calls.foldl CacheCall.record fun _ _ => none

/-- The filter a call writes for. -/
def CacheCall.writtenFilter : CacheCall → Option Filter
  | .write filter .. => some filter
  | .flush _ => none

def writtenFilters (calls : List CacheCall) : List Filter := calls.filterMap CacheCall.writtenFilter

/-- The calls a cache producer makes: writes for a filter other than the sentinels, of a commit
id of 160 bits, with the commit's own hint, which is a sample point. -/
def CacheCall.Admissible (hint : Oid → HistoryGraphHint) : CacheCall → Prop
  | .write filter fromOid _ h =>
    filter ≠ Filter.sequenceNumber ∧ filter ≠ Filter.reachableRoots ∧ fromOid < 2 ^ 160 ∧
      h = hint fromOid ∧ h.isSamplePoint = true
  | .flush _ => True

instance (hint : Oid → HistoryGraphHint) : (c : CacheCall) → Decidable (c.Admissible hint)
  | .write .. => inferInstanceAs (Decidable (_ ∧ _))
  | .flush _ => inferInstanceAs (Decidable True)

theorem foldl_record_eq_some (calls : List CacheCall) (s : Filter → Oid → Option Oid)
    {f : Filter} {x v : Oid} (last : calls.foldl CacheCall.record s f x = some v) :
    s f x = some v ∨ ∃ y h, CacheCall.write f x y h ∈ calls := by
  induction calls generalizing s with
  | nil => exact .inl last
  | cons c calls ih =>
    rcases ih (c.record s) last with here | later
    · cases c with
      | write filter fromOid toOid h =>
        simp only [CacheCall.record] at here
        split_ifs at here with same
        · obtain ⟨rfl, rfl⟩ := same
          exact .inr ⟨toOid, h, List.mem_cons_self⟩
        · exact .inl here
      | flush force => exact .inl here
    · obtain ⟨y, h, mem⟩ := later
      exact .inr ⟨y, h, List.mem_cons_of_mem _ mem⟩

/-! ### Shard trees -/

theorem find_upsertEntries {m : List (Oid × Oid)} (keys : (m.map Prod.fst).Nodup)
    (oids : ∀ p ∈ m, p.1 < 2 ^ 160) (root : ShardTree) {x : Oid} (hx : x < 2 ^ 160) :
    Assoc.find (upsertEntries root m) (fanout x) =
      ((Assoc.find m x).map CacheEntry.encode).or (Assoc.find root (fanout x)) :=
  Assoc.find_foldl_set_map fanout CacheEntry.encode m root x keys
    fun p hp same => fanout_inj (oids p hp) hx same

section Flush

variable {asTree : Filter → Oid}

/-- One shard map into `flush`'s loop. -/
theorem flushPending_cons (repo : ShardRefs) (force : Bool) (e : (Filter × Nat) × List (Oid × Oid))
    (entries : NewEntries) (pending : ShardRefs) :
    flushPending asTree repo force (e :: entries) pending =
      flushPending asTree repo force entries
        (if flushesShard force e.2 then commitShard asTree repo pending e else pending) := rfl

theorem flushPending_nodup (repo : ShardRefs) (force : Bool) (entries : NewEntries)
    {pending : ShardRefs} (keys : (pending.map Prod.fst).Nodup) :
    ((flushPending asTree repo force entries pending).map Prod.fst).Nodup := by
  induction entries generalizing pending with
  | nil => exact keys
  | cons e entries ih =>
    rw [flushPending_cons]
    apply ih
    split
    · exact Assoc.nodup_keys_set keys _ _
    · exact keys

/-- What `flush`'s loop leaves pending for the ref of one shard map, when no other shard map
has that ref: that map's commit, based on the newest pending commit or the published ref. -/
theorem find_flushPending (repo : ShardRefs) (force : Bool) (k : Filter × Nat)
    {entries : NewEntries} (keys : (entries.map Prod.fst).Nodup)
    (apart : ∀ e ∈ entries, e.1 ≠ k → refPath (asTree e.1.1) e.1.2 ≠ refPath (asTree k.1) k.2)
    (pending : ShardRefs) :
    Assoc.find (flushPending asTree repo force entries pending) (refPath (asTree k.1) k.2) =
      if flushesShard force ((Assoc.find entries k).getD []) then
        some (upsertEntries ((shardBase pending repo (refPath (asTree k.1) k.2)).getD [])
          ((Assoc.find entries k).getD []))
      else Assoc.find pending (refPath (asTree k.1) k.2) := by
  induction entries generalizing pending with
  | nil => rfl
  | cons e entries ih =>
    obtain ⟨key, m⟩ := e
    obtain ⟨fresh, keys⟩ := List.nodup_cons.mp keys
    rw [flushPending_cons, ih keys (fun e he => apart e (List.mem_cons_of_mem _ he)), Assoc.find_cons]
    by_cases same : key = k
    · -- the shard map of `k`: nothing later in the loop has its ref
      subst same
      rw [Assoc.find_eq_none_of_not_mem fresh, if_pos rfl, Option.getD_none, flushesShard_nil,
        if_neg Bool.false_ne_true, Option.getD_some]
      by_cases due : flushesShard force m
      · simp [due, commitShard]
      · simp [due]
    · -- another shard map: its commit, if any, is for another ref
      have frame : Assoc.find (if flushesShard force m then commitShard asTree repo pending (key, m)
          else pending) (refPath (asTree k.1) k.2) = Assoc.find pending (refPath (asTree k.1) k.2) := by
        split
        · exact Assoc.find_set_ne _ (apart _ List.mem_cons_self same) _
        · rfl
      simp only [if_neg same, shardBase, frame]

end Flush

/-! ### The invariant of every run -/

/-- What every run keeps of the backend's state: the keys of its maps are distinct, the shard
maps hold ids of 160 bits, and every filter buffered is one of `good`. -/
structure DistributedCacheBackend.WellFormed (good : Filter → Prop) (b : DistributedCacheBackend) :
    Prop where
  keys_nodup : (b.newEntries.map Prod.fst).Nodup
  good_filter : ∀ e ∈ b.newEntries, good e.1.1
  shard_nodup : ∀ e ∈ b.newEntries, (e.2.map Prod.fst).Nodup
  shard_oids : ∀ e ∈ b.newEntries, ∀ p ∈ e.2, p.1 < 2 ^ 160
  pending_nodup : (b.pendingRefs.map Prod.fst).Nodup

/-- Where the backend keeps the target of a filter and commit: in the shard map, or, when the
shard map has no record of the commit, in the tree of the shard's newest pending commit or of
its ref. -/
def DistributedCacheBackend.Holds (asTree : Filter → Oid) (b : DistributedCacheBackend)
    (filter : Filter) (shard : Nat) (fromOid toOid : Oid) : Prop :=
  Assoc.find (b.shardMap filter shard) fromOid = some toOid ∨
    Assoc.find (b.shardMap filter shard) fromOid = none ∧
      Assoc.find ((shardBase b.pendingRefs b.repo (refPath (asTree filter) shard)).getD [])
        (fanout fromOid) = some (CacheEntry.encode toOid)

namespace DistributedCacheBackend

variable {asTree : Filter → Oid} {good : Filter → Prop} {b : DistributedCacheBackend}

theorem wellFormed_openRepo (repo : ShardRefs) (writable : Bool) :
    (openRepo repo writable).WellFormed good :=
  ⟨List.nodup_nil, nofun, nofun, nofun, List.nodup_nil⟩

theorem WellFormed.shardMap_nodup (wf : b.WellFormed good) (filter : Filter) (shard : Nat) :
    ((b.shardMap filter shard).map Prod.fst).Nodup := by
  unfold shardMap
  cases h : Assoc.find b.newEntries (filter, shard) with
  | none => exact List.nodup_nil
  | some m => exact wf.shard_nodup _ (Assoc.mem_of_find h)

theorem WellFormed.shardMap_oids (wf : b.WellFormed good) (filter : Filter) (shard : Nat) :
    ∀ p ∈ b.shardMap filter shard, p.1 < 2 ^ 160 := by
  unfold shardMap
  cases h : Assoc.find b.newEntries (filter, shard) with
  | none => nofun
  | some m => exact wf.shard_oids _ (Assoc.mem_of_find h)

/-- Distinct good filters have distinct tree ids, so the shard maps of good filters are for
distinct refs. -/
theorem WellFormed.apart (wf : b.WellFormed good)
    (distinct : ∀ f, good f → ∀ g, good g → asTree f = asTree g → f = g) {k : Filter × Nat}
    (hk : good k.1) :
    ∀ e ∈ b.newEntries, e.1 ≠ k → refPath (asTree e.1.1) e.1.2 ≠ refPath (asTree k.1) k.2 := by
  intro e he ne same
  simp only [refPath, RefPath.mk.injEq] at same
  exact ne (Prod.ext (distinct _ (wf.good_filter e he) _ hk same.2) same.1)

/-! ### Flushing -/

theorem shardBase_flush (keys : (b.pendingRefs.map Prod.fst).Nodup) (force : Bool)
    (rp : RefPath) :
    shardBase (b.flush asTree force).pendingRefs (b.flush asTree force).repo rp =
      shardBase (flushPending asTree b.repo force b.newEntries b.pendingRefs) b.repo rp := by
  unfold flush
  dsimp only
  split_ifs
  · rfl
  · rfl
  · -- publishing: each ref takes its pending commit, and there is one for each ref at most
    simp only [shardBase, Assoc.find_nil, Option.none_or]
    rw [Assoc.find_foldl_set, Assoc.find_reverse (flushPending_nodup _ _ _ keys)]

/-- What `flush` does to the ref of a good filter's shard: it commits the shard map onto the
newest pending commit or the published ref when the map is due, and leaves it alone otherwise. -/
theorem shardBase_flush_of_good (wf : b.WellFormed good)
    (distinct : ∀ f, good f → ∀ g, good g → asTree f = asTree g → f = g) {filter : Filter}
    (hf : good filter) (force : Bool) (shard : Nat) :
    shardBase (b.flush asTree force).pendingRefs (b.flush asTree force).repo
        (refPath (asTree filter) shard) =
      if flushesShard force (b.shardMap filter shard) then
        some (upsertEntries ((shardBase b.pendingRefs b.repo (refPath (asTree filter) shard)).getD [])
          (b.shardMap filter shard))
      else shardBase b.pendingRefs b.repo (refPath (asTree filter) shard) := by
  rw [shardBase_flush wf.pending_nodup, shardBase,
    find_flushPending b.repo force (filter, shard) wf.keys_nodup (wf.apart distinct hf)]
  unfold shardMap
  split_ifs <;> rfl

theorem WellFormed.flush (wf : b.WellFormed good) (force : Bool) :
    (b.flush asTree force).WellFormed good := by
  have keys : (b.flush asTree force).newEntries.map Prod.fst = b.newEntries.map Prod.fst := by
    simp [newEntries_flush, Function.comp_def]
  -- every shard map after the flush is one before it, or empty
  have entry : ∀ e ∈ (b.flush asTree force).newEntries, ∃ e' ∈ b.newEntries,
      e.1 = e'.1 ∧ (e.2 = [] ∨ e.2 = e'.2) := by
    intro e he
    rw [newEntries_flush] at he
    obtain ⟨e', he', rfl⟩ := List.mem_map.mp he
    refine ⟨e', he', rfl, ?_⟩
    split <;> simp
  refine ⟨keys ▸ wf.keys_nodup, ?_, ?_, ?_, ?_⟩
  · intro e he
    obtain ⟨e', he', same, -⟩ := entry e he
    exact same ▸ wf.good_filter e' he'
  · intro e he
    obtain ⟨e', he', -, map⟩ := entry e he
    rcases map with map | map <;> rw [map]
    · exact List.nodup_nil
    · exact wf.shard_nodup e' he'
  · intro e he
    obtain ⟨e', he', -, map⟩ := entry e he
    rcases map with map | map <;> rw [map]
    · nofun
    · exact wf.shard_oids e' he'
  · unfold DistributedCacheBackend.flush
    dsimp only
    split_ifs
    · exact flushPending_nodup _ _ _ wf.pending_nodup
    · exact flushPending_nodup _ _ _ wf.pending_nodup
    · exact List.nodup_nil

/-- No flush loses a target: a shard map it commits goes into its ref's new commit, on top of
the commit the earlier targets are in. -/
theorem Holds.flush (wf : b.WellFormed good)
    (distinct : ∀ f, good f → ∀ g, good g → asTree f = asTree g → f = g) {filter : Filter}
    (hf : good filter) {shard : Nat} {fromOid toOid : Oid} (hx : fromOid < 2 ^ 160)
    (holds : b.Holds asTree filter shard fromOid toOid) (force : Bool) :
    (b.flush asTree force).Holds asTree filter shard fromOid toOid := by
  unfold Holds
  rw [shardMap_flush, shardBase_flush_of_good wf distinct hf]
  split_ifs with flushed
  · right
    refine ⟨Assoc.find_nil _, ?_⟩
    rw [Option.getD_some, find_upsertEntries (wf.shardMap_nodup _ _) (wf.shardMap_oids _ _) _ hx]
    rcases holds with here | ⟨absent, there⟩
    · simp [here]
    · simp [absent, there]
  · exact holds

/-! ### Writing -/

theorem WellFormed.insertEntry (wf : b.WellFormed good) {filter : Filter} (hf : good filter)
    (shard : Nat) {fromOid : Oid} (hx : fromOid < 2 ^ 160) (toOid : Oid) :
    (b.insertEntry filter shard fromOid toOid).WellFormed good := by
  -- the new shard map, and the others as they were
  have entry : ∀ e ∈ (b.insertEntry filter shard fromOid toOid).newEntries,
      e = ((filter, shard), Assoc.set (b.shardMap filter shard) fromOid toOid) ∨ e ∈ b.newEntries :=
    fun e he => Assoc.mem_set he
  refine ⟨Assoc.nodup_keys_set wf.keys_nodup _ _, ?_, ?_, ?_, wf.pending_nodup⟩
  · intro e he
    rcases entry e he with rfl | he
    · exact hf
    · exact wf.good_filter e he
  · intro e he
    rcases entry e he with rfl | he
    · exact Assoc.nodup_keys_set (wf.shardMap_nodup _ _) _ _
    · exact wf.shard_nodup e he
  · intro e he
    rcases entry e he with rfl | he
    · intro p hp
      rcases Assoc.mem_set hp with rfl | hp
      · exact hx
      · exact wf.shardMap_oids _ _ p hp
    · exact wf.shard_oids e he

theorem holds_insertEntry_self (filter : Filter) (shard : Nat) (fromOid toOid : Oid) :
    (b.insertEntry filter shard fromOid toOid).Holds asTree filter shard fromOid toOid := by
  left
  rw [shardMap_insertEntry, if_pos rfl, Assoc.find_set_self]

theorem Holds.insertEntry {filter : Filter} {shard : Nat} {fromOid toOid : Oid}
    (holds : b.Holds asTree filter shard fromOid toOid) {filter' : Filter} {shard' : Nat}
    {fromOid' : Oid} (other : ¬(filter = filter' ∧ fromOid = fromOid')) (toOid' : Oid) :
    (b.insertEntry filter' shard' fromOid' toOid').Holds asTree filter shard fromOid toOid := by
  unfold Holds
  rw [shardMap_insertEntry, pendingRefs_insertEntry, repo_insertEntry]
  split_ifs with same
  · -- the same shard map, with a record of another commit
    obtain ⟨rfl, rfl⟩ := Prod.mk.inj same
    rw [Assoc.find_set_ne _ fun h => other ⟨rfl, h.symm⟩]
    exact holds
  · exact holds

end DistributedCacheBackend

/-! ### Runs -/

section Run

variable {asTree : Filter → Oid} {hint : Oid → HistoryGraphHint} {good : Filter → Prop}

/-- The backend keeps every target of the store of last writes, for the good filters and the
commit ids of 160 bits, in the shard its commit's hint names. -/
def Simulates (asTree : Filter → Oid) (hint : Oid → HistoryGraphHint) (good : Filter → Prop)
    (b : DistributedCacheBackend) (s : Filter → Oid → Option Oid) : Prop :=
  ∀ f x v, good f → x < 2 ^ 160 → s f x = some v →
    b.Holds asTree f ((hint x).sequenceNumber / 10000) x v

theorem Simulates.flush {b : DistributedCacheBackend} {s : Filter → Oid → Option Oid}
    (wf : b.WellFormed good) (distinct : ∀ f, good f → ∀ g, good g → asTree f = asTree g → f = g)
    (sim : Simulates asTree hint good b s) (force : Bool) :
    Simulates asTree hint good (b.flush asTree force) s :=
  fun f x v hf hx last => (sim f x v hf hx last).flush wf distinct hf hx force

theorem Simulates.insertEntry {b : DistributedCacheBackend} {s : Filter → Oid → Option Oid}
    (sim : Simulates asTree hint good b s) (filter : Filter) (fromOid toOid : Oid)
    (h : HistoryGraphHint) (own : h = hint fromOid) :
    Simulates asTree hint good (b.insertEntry filter (h.sequenceNumber / 10000) fromOid toOid)
      ((CacheCall.write filter fromOid toOid h).record s) := by
  intro f x v hf hx last
  simp only [CacheCall.record] at last
  split_ifs at last with same
  · -- the target just written
    obtain ⟨rfl, rfl⟩ := same
    cases last
    rw [← own]
    exact DistributedCacheBackend.holds_insertEntry_self _ _ _ _
  · exact (sim f x v hf hx last).insertEntry same toOid

/-- One call keeps the invariant and the simulation. -/
theorem call_simulates {b : DistributedCacheBackend} {s : Filter → Oid → Option Oid}
    (distinct : ∀ f, good f → ∀ g, good g → asTree f = asTree g → f = g)
    (wf : b.WellFormed good) (writable : b.writable = true) (sim : Simulates asTree hint good b s)
    (c : CacheCall) (admissible : c.Admissible hint) (hc : ∀ f ∈ c.writtenFilter, good f) :
    (b.call asTree c).WellFormed good ∧ Simulates asTree hint good (b.call asTree c) (c.record s) := by
  cases c with
  | flush force => exact ⟨wf.flush force, sim.flush wf distinct force⟩
  | write filter fromOid toOid h =>
    obtain ⟨seq, roots, hx, own, sample⟩ := admissible
    have hf : good filter := hc filter rfl
    have wf' := wf.insertEntry hf (h.sequenceNumber / 10000) hx toOid
    have sim' := sim.insertEntry filter fromOid toOid h own
    simp only [DistributedCacheBackend.call]
    rw [DistributedCacheBackend.write_of_admitted asTree writable seq roots sample]
    dsimp only
    split
    · exact ⟨wf', sim'⟩
    · exact ⟨wf'.flush false, sim'.flush wf' distinct false⟩

theorem run_simulates (distinct : ∀ f, good f → ∀ g, good g → asTree f = asTree g → f = g) :
    ∀ (calls : List CacheCall) {b : DistributedCacheBackend} {s : Filter → Oid → Option Oid},
      b.WellFormed good → b.writable = true → Simulates asTree hint good b s →
      (∀ c ∈ calls, c.Admissible hint) → (∀ f ∈ writtenFilters calls, good f) →
      (b.run asTree calls).WellFormed good ∧
        Simulates asTree hint good (b.run asTree calls) (calls.foldl CacheCall.record s)
  | [], _, _, wf, _, sim, _, _ => ⟨wf, sim⟩
  | c :: calls, b, _, wf, writable, sim, admissible, written => by
    have hc : ∀ f ∈ c.writtenFilter, good f := fun f hf =>
      written f (List.mem_filterMap.mpr ⟨c, List.mem_cons_self, hf⟩)
    obtain ⟨wf', sim'⟩ :=
      call_simulates distinct wf writable sim c (admissible c List.mem_cons_self) hc
    have writable' : (b.call asTree c).writable = true := by
      cases c <;> simp [DistributedCacheBackend.call, writable]
    exact run_simulates distinct calls wf' writable' sim'
      (fun c' hc' => admissible c' (List.mem_cons_of_mem _ hc'))
      (fun f hf => written f (List.mem_filterMap.mpr
        (by obtain ⟨c', hc', h⟩ := List.mem_filterMap.mp hf; exact ⟨c', List.mem_cons_of_mem _ hc', h⟩)))

end Run

namespace DistributedCacheBackend

variable {asTree : Filter → Oid} {b : DistributedCacheBackend}

theorem Holds.lookup {filter : Filter} {shard : Nat} {fromOid toOid : Oid}
    (holds : b.Holds asTree filter shard fromOid toOid) :
    b.lookup asTree filter shard fromOid = some toOid := by
  unfold DistributedCacheBackend.lookup
  rcases holds with here | ⟨absent, there⟩
  · rw [here]
  · rw [absent]
    cases base : shardBase b.pendingRefs b.repo (refPath (asTree filter) shard) with
    | none => simp [base] at there
    | some tree =>
      rw [base, Option.getD_some] at there
      simp [there]

/-- After a forced flush the refs alone hold every target, so a backend opened on them afresh
finds it. -/
theorem Holds.openRepo_flush {filter : Filter} {shard : Nat} {fromOid toOid : Oid}
    (holds : (b.flush asTree true).Holds asTree filter shard fromOid toOid) (writable : Bool) :
    (openRepo (b.flush asTree true).repo writable).Holds asTree filter shard fromOid toOid := by
  unfold Holds at holds ⊢
  rw [shardMap_flush_true, pendingRefs_flush_true] at holds
  rcases holds with here | ⟨-, there⟩
  · simp at here
  · exact .inr ⟨rfl, there⟩

end DistributedCacheBackend

end Josh
