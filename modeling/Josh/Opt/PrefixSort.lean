import Josh.Opt.Structure
import Mathlib

/-! `prefix_sort` of `josh-filter/src/opt/prefix_sort.rs`, with `src_path` and `dst_path` of
`paths.rs`: the members of a compose in an order that keeps each member after the earlier ones
whose input or output paths overlap its own, and otherwise takes the least input path, then the
least output path, first. -/

namespace Josh

mutual
/-- `src_path`: the path a filter reads from, on the op below its `Meta` wrappers. Paths are
lists of normal components already, which `normalize_path` leaves as they are. -/
def srcPath : Op → Path
  | .«meta» _ f => srcPath f
  | .subdir path => path
  | .file _ source => source
  | .chain filters => srcPathList filters
  | _ => []
/-- The source paths of a chain's filters joined, the first filter's first. -/
def srcPathList : List Op → Path
  | [] => []
  | f :: fs => srcPath f ++ srcPathList fs
end

mutual
/-- `dst_path`: the path a filter writes to, on the op below its `Meta` wrappers. -/
def dstPath : Op → Path
  | .«meta» _ f => dstPath f
  | .prefixDir path => path
  | .file dest _ => dest
  | .chain filters => dstPathList filters
  | _ => []
/-- The destination paths of a chain's filters joined, the last filter's first. -/
def dstPathList : List Op → Path
  | [] => []
  | f :: fs => dstPathList fs ++ dstPath f
end

/-- Two paths one of which lies at or below the other. -/
def Overlaps (p q : Path) : Prop := p <+: q ∨ q <+: p

instance : DecidableRel Overlaps := fun _ _ => inferInstanceAs (Decidable (_ ∨ _))

/-- `PathTrie`, by the paths inserted into it with their indices: it is an index for the one
query `find_overlapping`, whose answer does not depend on how it is stored. -/
structure PathTrie where
  entries : List (Path × Nat)

def PathTrie.insert (t : PathTrie) (path : Path) (index : Nat) : PathTrie :=
  ⟨t.entries ++ [(path, index)]⟩

/-- `find_overlapping`: the indices of the paths at, above or below `path`. -/
def PathTrie.findOverlapping (t : PathTrie) (path : Path) : List Nat :=
  (t.entries.filter fun e => decide (Overlaps e.1 path)).map (·.2)

/-- `maybe_push_outgoing`: the edge from `j` to `i`, unless `i` is already `j`'s last. -/
def pushOutgoing (outgoing : List (List Nat)) (j i : Nat) : List (List Nat) :=
  outgoing.modify j fun out => if out.getLast? = some i then out else out ++ [i]

/-- One member into the edges of `prefix_sort`: an edge from each earlier member whose source
or destination path overlaps this member's. -/
def prefixSortEdge (state : List (List Nat) × PathTrie × PathTrie) (member : Op × Nat) :
    List (List Nat) × PathTrie × PathTrie :=
  let (outgoing, srcTrie, dstTrie) := state
  let (filter, i) := member
  let src := srcPath filter
  let dst := dstPath filter
  let outgoing := (srcTrie.findOverlapping src).foldl (fun o j => pushOutgoing o j i) outgoing
  let outgoing := (dstTrie.findOverlapping dst).foldl (fun o j => pushOutgoing o j i) outgoing
  (outgoing, srcTrie.insert src i, dstTrie.insert dst i)

/-- The edges `prefix_sort` builds: from each member to the later members it must precede. -/
def prefixSortEdges (filters : List Op) : List (List Nat) :=
  (filters.zipIdx.foldl prefixSortEdge (List.replicate filters.length [], ⟨[]⟩, ⟨[]⟩)).1

/-- The order of `SortKey`, reversed for the max-heap: the least source path first, then the
least destination path. -/
def keyLt (a b : Path × Path) : Bool :=
  decide (a.1 < b.1) || (a.1 = b.1 && decide (a.2 < b.2))

/-- `BinaryHeap::pop` on the sort keys: the index of the least key, and the rest. Two indices of
one key are never in the heap together, since each overlaps the other. -/
def popLeast (key : Nat → Path × Path) : List Nat → Option (Nat × List Nat)
  | [] => none
  | i :: rest =>
    match popLeast key rest with
    | none => some (i, [])
    | some (j, others) => if keyLt (key j) (key i) then some (j, i :: others) else some (i, rest)

/-- Releasing the members that follow `i`: each loses one incoming edge, and enters the heap
when it has none left. -/
def release (indegree heap : List Nat) (j : Nat) : List Nat × List Nat :=
  let d := indegree.getD j 0 - 1
  (indegree.set j d, if d = 0 then heap ++ [j] else heap)

/-- The loop of `topo_sort_with_tiebreak`, with one round for each member. -/
def topoSortLoop (outgoing : List (List Nat)) (key : Nat → Path × Path) :
    Nat → List Nat → List Nat → List Nat → List Nat
  | 0, _, _, result => result
  | rounds + 1, indegree, heap, result =>
    match popLeast key heap with
    | none => result
    | some (i, heap) =>
      let (indegree, heap) :=
        (outgoing.getD i []).foldl (fun s j => release s.1 s.2 j) (indegree, heap)
      topoSortLoop outgoing key rounds indegree heap (result ++ [i])

/-- `topo_sort_with_tiebreak`. -/
def topoSortWithTiebreak (outgoing : List (List Nat)) (filters : List Op) : List Op :=
  let n := filters.length
  let indegree := (List.range n).map fun j => (outgoing.map (·.count j)).sum
  let key := fun i => match filters[i]? with
    | some f => (srcPath f, dstPath f)
    | none => ([], [])
  let heap := (List.range n).filter fun i => indegree.getD i 0 = 0
  (topoSortLoop outgoing key n indegree heap []).filterMap (filters[·]?)

/-- `prefix_sort`. -/
def prefixSort (filters : List Op) : List Op :=
  if filters.length ≤ 1 then filters
  else topoSortWithTiebreak (prefixSortEdges filters) filters

end Josh
