import Josh.Cache.Backend
import Josh.Lib.Assoc
import Josh.Lib.Hex

/-! `DistributedCacheBackend` of `josh-core/src/cache/distributed.rs`: the records of sample-point
commits are buffered in one map per filter and shard, flushed into shard commits whose trees
hold each record at the fanout path of its commit, and published to the cache refs by a forced
flush. Hash maps are association lists, whose order no result depends on. A shard commit is its
tree: no read follows its parent. `tree_ids` only replays `as_tree`, which is a parameter, and
the object store, the background packing and the failures of I/O are left out. -/

namespace Josh

/-- `FLUSH_AFTER`. -/
def flushAfter : Nat := 1000

/-- `fanout`: the path of a commit's record in a shard tree, by the hexadecimal text of its id:
the first two digits, the next three, and the rest. -/
def fanout (commit : Oid) : List String :=
  let commit := Nat.hexDigits 40 commit
  [String.ofList (commit.take 2), String.ofList ((commit.drop 2).take 3),
    String.ofList (commit.drop 5)]

theorem fanout_inj {a b : Oid} (ha : a < 2 ^ 160) (hb : b < 2 ^ 160) (h : fanout a = fanout b) :
    a = b := by
  simp only [fanout, List.cons.injEq, String.ofList_inj, and_true] at h
  obtain ⟨h₁, h₂, h₃⟩ := h
  -- the three pieces put back together are the whole text
  have whole : ∀ l : List Char, l.take 2 ++ ((l.drop 2).take 3 ++ l.drop 5) = l := by
    intro l
    rw [show l.drop 5 = (l.drop 2).drop 3 by simp, List.take_append_drop, List.take_append_drop]
  have text : Nat.hexDigits 40 a = Nat.hexDigits 40 b := by
    rw [← whole (Nat.hexDigits 40 a), ← whole (Nat.hexDigits 40 b), h₁, h₂, h₃]
  have width : (2 : Nat) ^ 160 = 16 ^ 40 := by decide
  exact Nat.hexDigits_inj (width ▸ ha) (width ▸ hb) text

/-- A cache ref, `refs/josh/cache/{CACHE_VERSION}/{shard}/{filter_tree_id}`, by the two numbers
its name is made of. -/
structure RefPath where
  shard : Nat
  filterTreeId : Oid
  deriving DecidableEq

/-- `ref_path`. -/
def refPath (filterTreeId : Oid) (shard : Nat) : RefPath := ⟨shard, filterTreeId⟩

/-- An entry of a shard tree: a gitlink to the filtered commit, or the empty blob that stands
for the zero oid, which a gitlink cannot hold. -/
inductive CacheEntry where
  | gitlink (target : Oid)
  | emptyBlob
  deriving DecidableEq

/-- The entry `flush` writes for a target. -/
def CacheEntry.encode (target : Oid) : CacheEntry :=
  if target = zeroOid then .emptyBlob else .gitlink target

/-- The target `read` takes from an entry: a gitlink's, and the zero oid for any other mode. -/
def CacheEntry.decode : CacheEntry → Oid
  | .gitlink target => target
  | .emptyBlob => zeroOid

@[simp] theorem CacheEntry.decode_encode (target : Oid) : (encode target).decode = target := by
  unfold encode
  split <;> simp_all [decode]

/-- A shard commit's tree, by the fanout paths of its entries. -/
abbrev ShardTree := List (List String × CacheEntry)

/-- Cache refs, each to a shard commit, which is its tree. -/
abbrev ShardRefs := List (RefPath × ShardTree)

/-- The shard maps of `new_entries`, keyed by filter and shard. -/
abbrev NewEntries := List ((Filter × Nat) × List (Oid × Oid))

/-- `DistributedCacheBackend` on a repository whose cache refs are `repo`. -/
structure DistributedCacheBackend where
  newEntries : NewEntries
  writable : Bool
  pendingRefs : ShardRefs
  repo : ShardRefs

namespace DistributedCacheBackend

/-- `open`: nothing buffered and nothing pending. -/
def openRepo (repo : ShardRefs) (writable : Bool) : DistributedCacheBackend :=
  ⟨[], writable, [], repo⟩

/-- The shard map of a filter and shard, empty when there is none. -/
def shardMap (b : DistributedCacheBackend) (filter : Filter) (shard : Nat) : List (Oid × Oid) :=
  (Assoc.find b.newEntries (filter, shard)).getD []

end DistributedCacheBackend

/-- The tree a shard's records are read from and a new shard commit is based on: the newest
pending commit's, else the published ref's. -/
def shardBase (pending repo : ShardRefs) (rp : RefPath) : Option ShardTree :=
  (Assoc.find pending rp).or (Assoc.find repo rp)

/-- The `editor.upsert` of every record of a shard map into a tree. -/
def upsertEntries (root : ShardTree) (m : List (Oid × Oid)) : ShardTree :=
  m.foldl (fun tree e => Assoc.set tree (fanout e.1) (CacheEntry.encode e.2)) root

/-- Whether `flush` commits a shard map: a non-empty one, when forced or once it has
`FLUSH_AFTER` records. -/
def flushesShard (force : Bool) (m : List (Oid × Oid)) : Bool :=
  !m.isEmpty && (force || decide (flushAfter ≤ m.length))

@[simp] theorem flushesShard_nil (force : Bool) : flushesShard force [] = false := rfl

section Model

variable (asTree : Filter → Oid)

/-- The commit `flush` builds for a shard map, pending for the shard's ref. -/
def commitShard (repo pending : ShardRefs) (entry : (Filter × Nat) × List (Oid × Oid)) :
    ShardRefs :=
  let rp := refPath (asTree entry.1.1) entry.1.2
  Assoc.set pending rp (upsertEntries ((shardBase pending repo rp).getD []) entry.2)

/-- The pending commits after `flush`'s loop over the shard maps. -/
def flushPending (repo : ShardRefs) (force : Bool) (entries : NewEntries) (pending : ShardRefs) :
    ShardRefs :=
  entries.foldl
    (fun pending e => if flushesShard force e.2 then commitShard asTree repo pending e else pending)
    pending

namespace DistributedCacheBackend

/-- `flush`: the loop clears each shard map it commits; a forced flush then publishes every
pending commit. -/
def flush (b : DistributedCacheBackend) (force : Bool) : DistributedCacheBackend :=
  let pending := flushPending asTree b.repo force b.newEntries b.pendingRefs
  let newEntries := b.newEntries.map fun e => (e.1, if flushesShard force e.2 then [] else e.2)
  if !force then { b with newEntries, pendingRefs := pending }
  else if pending.isEmpty then { b with newEntries, pendingRefs := pending }
  else
    { b with newEntries, pendingRefs := [],
             repo := pending.foldl (fun repo e => Assoc.set repo e.1 e.2) b.repo }

/-- The insertion of `write`, by `entry(..).or_insert` and `insert`. -/
def insertEntry (b : DistributedCacheBackend) (filter : Filter) (shard : Nat)
    (fromOid toOid : Oid) : DistributedCacheBackend :=
  { b with newEntries :=
      Assoc.set b.newEntries (filter, shard) (Assoc.set (b.shardMap filter shard) fromOid toOid) }

/-- `write`. -/
def write (b : DistributedCacheBackend) (filter : Filter) (fromOid toOid : Oid)
    (hint : HistoryGraphHint) : DistributedCacheBackend :=
  if !b.writable then b
  else if filter = Filter.sequenceNumber ∨ filter = Filter.reachableRoots then b
  else if !hint.isSamplePoint then b
  else
    let shard := hint.sequenceNumber / 10000
    let b := b.insertEntry filter shard fromOid toOid
    if (b.shardMap filter shard).length < flushAfter then b else b.flush asTree false

/-- The lookup of `read` past its gates: the newly added records first, then the tree of the
shard's pending commit or ref. -/
def lookup (b : DistributedCacheBackend) (filter : Filter) (shard : Nat) (fromOid : Oid) :
    Option Oid :=
  match Assoc.find (b.shardMap filter shard) fromOid with
  | some target => some target
  | none =>
    match shardBase b.pendingRefs b.repo (refPath (asTree filter) shard) with
    | none => none
    | some tree => (Assoc.find tree (fanout fromOid)).map CacheEntry.decode

/-- `read`. -/
def read (b : DistributedCacheBackend) (filter : Filter) (fromOid : Oid)
    (hint : HistoryGraphHint) (treeKeyed : Bool) : Option Oid :=
  if filter = Filter.sequenceNumber ∨ filter = Filter.reachableRoots then none
  else if !treeKeyed && !hint.isSamplePoint then none
  else b.lookup asTree filter (hint.sequenceNumber / 10000) fromOid

end DistributedCacheBackend

/-- The calls a cache producer makes on the backend. -/
inductive CacheCall where
  | write (filter : Filter) (fromOid toOid : Oid) (hint : HistoryGraphHint)
  | flush (force : Bool)

namespace DistributedCacheBackend

def call (b : DistributedCacheBackend) : CacheCall → DistributedCacheBackend
  | .write filter fromOid toOid hint => b.write asTree filter fromOid toOid hint
  | .flush force => b.flush asTree force

def run (b : DistributedCacheBackend) (calls : List CacheCall) : DistributedCacheBackend :=
  calls.foldl (call asTree) b

end DistributedCacheBackend

namespace DistributedCacheBackend

/-! What each operation does to the maps, the pending commits and the refs. -/

@[simp] theorem shardMap_openRepo (repo : ShardRefs) (writable : Bool) (filter : Filter)
    (shard : Nat) : (openRepo repo writable).shardMap filter shard = [] := rfl

theorem shardMap_insertEntry (b : DistributedCacheBackend) (filter : Filter) (shard : Nat)
    (fromOid toOid : Oid) (filter' : Filter) (shard' : Nat) :
    (b.insertEntry filter shard fromOid toOid).shardMap filter' shard' =
      if (filter, shard) = (filter', shard') then Assoc.set (b.shardMap filter shard) fromOid toOid
      else b.shardMap filter' shard' := by
  unfold shardMap insertEntry
  rw [Assoc.find_set]
  split_ifs <;> rfl

@[simp] theorem pendingRefs_insertEntry (b : DistributedCacheBackend) (filter : Filter)
    (shard : Nat) (fromOid toOid : Oid) :
    (b.insertEntry filter shard fromOid toOid).pendingRefs = b.pendingRefs := rfl

@[simp] theorem repo_insertEntry (b : DistributedCacheBackend) (filter : Filter) (shard : Nat)
    (fromOid toOid : Oid) : (b.insertEntry filter shard fromOid toOid).repo = b.repo := rfl

@[simp] theorem writable_insertEntry (b : DistributedCacheBackend) (filter : Filter)
    (shard : Nat) (fromOid toOid : Oid) :
    (b.insertEntry filter shard fromOid toOid).writable = b.writable := rfl

theorem newEntries_flush (b : DistributedCacheBackend) (force : Bool) :
    (b.flush asTree force).newEntries =
      b.newEntries.map fun e => (e.1, if flushesShard force e.2 then [] else e.2) := by
  unfold flush
  dsimp only
  split_ifs <;> rfl

@[simp] theorem writable_flush (b : DistributedCacheBackend) (force : Bool) :
    (b.flush asTree force).writable = b.writable := by
  unfold flush
  dsimp only
  split_ifs <;> rfl

/-- After a forced flush nothing is pending. -/
theorem pendingRefs_flush_true (b : DistributedCacheBackend) :
    (b.flush asTree true).pendingRefs = [] := by
  unfold flush
  dsimp only
  split_ifs with forced empty
  · simp at forced
  · simpa using empty
  · rfl

theorem shardMap_flush (b : DistributedCacheBackend) (force : Bool) (filter : Filter)
    (shard : Nat) :
    (b.flush asTree force).shardMap filter shard =
      if flushesShard force (b.shardMap filter shard) then [] else b.shardMap filter shard := by
  unfold shardMap
  rw [newEntries_flush, Assoc.find_map_snd fun m => if flushesShard force m then [] else m]
  cases Assoc.find b.newEntries (filter, shard) <;> rfl

/-- A forced flush commits every shard map. -/
@[simp] theorem shardMap_flush_true (b : DistributedCacheBackend) (filter : Filter)
    (shard : Nat) : (b.flush asTree true).shardMap filter shard = [] := by
  rw [shardMap_flush]
  split_ifs with h
  · rfl
  · simpa [flushesShard] using h

theorem write_of_admitted {b : DistributedCacheBackend} {filter : Filter} {hint : HistoryGraphHint}
    (writable : b.writable = true) (seq : filter ≠ Filter.sequenceNumber)
    (roots : filter ≠ Filter.reachableRoots) (sample : hint.isSamplePoint = true)
    (fromOid toOid : Oid) :
    b.write asTree filter fromOid toOid hint =
      let shard := hint.sequenceNumber / 10000
      let b := b.insertEntry filter shard fromOid toOid
      if (b.shardMap filter shard).length < flushAfter then b else b.flush asTree false := by
  simp [write, writable, seq, roots, sample]

@[simp] theorem writable_write (b : DistributedCacheBackend) (filter : Filter)
    (fromOid toOid : Oid) (hint : HistoryGraphHint) :
    (b.write asTree filter fromOid toOid hint).writable = b.writable := by
  unfold write
  dsimp only
  split_ifs <;> simp

theorem read_of_admitted (b : DistributedCacheBackend) {filter : Filter}
    {hint : HistoryGraphHint} (seq : filter ≠ Filter.sequenceNumber)
    (roots : filter ≠ Filter.reachableRoots) (sample : hint.isSamplePoint = true)
    (fromOid : Oid) (treeKeyed : Bool) :
    b.read asTree filter fromOid hint treeKeyed =
      b.lookup asTree filter (hint.sequenceNumber / 10000) fromOid := by
  simp [read, seq, roots, sample]

end DistributedCacheBackend

end Model

end Josh
