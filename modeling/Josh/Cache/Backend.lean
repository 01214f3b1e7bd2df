import Josh.Apply

/-! What every cache backend is given, `josh-core/src/cache/backend.rs`: the filter a record is
kept under, with the two sentinel filters of `josh-filter/src/filter.rs`, and the history hint of
the commit it is kept for, which decides whether the commit is a sample point. -/

namespace Josh

/-- A `Filter` handle as a cache key. Filters compare by node identity: interned nodes are one
per op, and the two sentinel nodes bypass interning, so a sentinel equals no interned filter,
not even the `Nop` it reads as. -/
inductive Filter where
  | interned (op : Op)
  | sentinel (oid : Oid)
  deriving DecidableEq

/-- `sequence_number()`: the sentinel of the zero oid. -/
def Filter.sequenceNumber : Filter := .sentinel zeroOid

/-- `reachable_roots()`: the sentinel of the oid whose last byte alone is 1. -/
def Filter.reachableRoots : Filter := .sentinel 1

@[simp] theorem Filter.interned_ne_sequenceNumber (op : Op) :
    Filter.interned op ≠ Filter.sequenceNumber := Filter.noConfusion

@[simp] theorem Filter.interned_ne_reachableRoots (op : Op) :
    Filter.interned op ≠ Filter.reachableRoots := Filter.noConfusion

/-- `HistoryGraphHint`. `jump_is_second` is read by no backend and is left out. -/
structure HistoryGraphHint where
  sequenceNumber : Nat
  parentCount : Nat
  jumpDelta : Nat
  deriving DecidableEq, Repr

/-- `SAMPLE_INTERVAL`. -/
def sampleInterval : Nat := 100

/-- `crosses_sample_boundary`: a backward step of `delta` from `seq` skips a multiple of the
sample interval. -/
def crossesSampleBoundary (seq delta : Nat) : Bool :=
  (seq - delta) / sampleInterval < seq / sampleInterval

/-- `is_sample_point`: one commit in a hundred by sequence number, and the orphans, octopus
merges and merges whose jump skips a sample point. -/
def HistoryGraphHint.isSamplePoint (self : HistoryGraphHint) : Bool :=
  if self.sequenceNumber % sampleInterval = 0 then true
  else
    match self.parentCount with
    | 1 => false
    | 2 => crossesSampleBoundary self.sequenceNumber self.jumpDelta
    | _ => true

end Josh
