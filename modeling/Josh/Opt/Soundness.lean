import Josh.Opt.Optimize
import Josh.Reloc

/-! What the optimizer keeps of a filter's meaning: `apply` of the optimized filter against
`apply` of the filter. -/

namespace Josh

/-- The `Subtract` rule for a compose that has the subtracted filter as a member drops that
member, and with it what the member took from the input. When another member reads the same
part of the input, the original filter removes that part from the other member's output too,
and the optimized one keeps it. -/
theorem optimize_drops_overlapping_member :
    optimize 10 (.subtract (.compose [.subdir ["a"], .subdir ["a", "b"]]) (.subdir ["a", "b"])) =
        some (.subdir ["a"]) ∧
      minimize 10 (.subtract (.compose [.subdir ["a"], .subdir ["a", "b"]]) (.subdir ["a", "b"])) =
        some (.subdir ["a"]) ∧
      apply UnapplyEnv.treesOnly.toApplyEnv
          (.subtract (.compose [.subdir ["a"], .subdir ["a", "b"]]) (.subdir ["a", "b"]))
          (.fromTree (.tree [("a", .tree, .tree [("b", .tree, .tree [("x", .blob, .blob [1])]),
            ("c", .blob, .blob [2])])])) =
        .ok (.fromTree (.tree [("c", .blob, .blob [2])])) ∧
      apply UnapplyEnv.treesOnly.toApplyEnv (.subdir ["a"])
          (.fromTree (.tree [("a", .tree, .tree [("b", .tree, .tree [("x", .blob, .blob [1])]),
            ("c", .blob, .blob [2])])])) =
        .ok (.fromTree (.tree [("b", .tree, .tree [("x", .blob, .blob [1])]),
          ("c", .blob, .blob [2])])) :=
  ⟨by decide +kernel, by decide +kernel, rfl, rfl⟩

end Josh
