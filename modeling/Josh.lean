import Josh.Lib.PathMap
import Josh.Lib.Except
import Josh.Lib.Assoc
import Josh.Lib.Hex
import Josh.Tree
import Josh.Leaves
import Josh.TreeOps
import Josh.Op
import Josh.Invert
import Josh.Apply
import Josh.Unapply
import Josh.Reloc
import Josh.Opt.Structure
import Josh.Opt.PrefixSort
import Josh.Opt.Step
import Josh.Opt.Optimize
import Josh.Opt.Soundness
import Josh.Cache.Backend
import Josh.Cache.Distributed
import Josh.Cache.Durability
import Josh.Lib.Json
import Josh.Persist.Build
import Josh.Persist.Read
import Josh.Cache.HistoryGraph
import Josh.Intersect
import Josh.Lib.Option
import Josh.Opt.Invertible
import Josh.Walk.RevWalk
import Josh.Cache.HintCache
import Josh.Walk.Reach
import Josh.Walk.RangeWalk
import Josh.Pin
import Josh.Persist.Ident
import Josh.Ns
import Josh.Changes.Store
import Josh.Changes.Refs
import Josh.Submodules
import Josh.RegexReplace
import Josh.Opt.PrefixOrder
import Josh.DiffPaths
import Josh.MemOdb
import Josh.Lib.BitSet
import Josh.Glob.Pattern
import Josh.Glob.Semantics
import Josh.Pattern
import Josh.RemovePattern
