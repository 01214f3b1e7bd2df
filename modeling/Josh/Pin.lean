import Josh.Intersect
import Josh.Opt.Optimize
import Josh.Reloc

/-! `:pin` in `per_rev_filter` of `josh-core/src/filter/mod.rs`. The pins of a commit's filter are
legalized twice, each `Pin(f)` replaced once by `Select(f)` and once by `Exclude(f)`; the
difference of the two, applied to the commit, is the pinned set. The commit's filtered tree is
then the first filtered parent's tree on the pinned set, laid over the filter's own output
without the pinned set. On its blob paths that is the parent at a pinned path and the filter's
output elsewhere, provided neither tree has a file where the pinned set has a directory, or
the other way round. Where the parent has one, the parent's file leaks into the result. -/

namespace Josh

mutual
/-- `legalize_pin`: each `Pin(f)` within the nests of `Compose`, `Chain`, `Subtract`, `Exclude`,
`Select` and `Meta` replaced by `c f`; any other filter is left as it is. -/
def legalizePin (c : Op → Op) : Op → Op
  | .compose fs => .compose (legalizePinList c fs)
  | .chain fs => .chain (legalizePinList c fs)
  | .subtract a b => .subtract (legalizePin c a) (legalizePin c b)
  | .exclude f => .exclude (legalizePin c f)
  | .select f => .select (legalizePin c f)
  | .«meta» m f => .«meta» m (legalizePin c f)
  | .pin f => c f
  | f => f
/-- `legalize_pin` over the members of a nest. -/
def legalizePinList (c : Op → Op) : List Op → List Op
  | [] => []
  | f :: fs => legalizePin c f :: legalizePinList c fs
end

/-- The tree `per_rev_filter` gives a commit that its filter does not squash away: the filter
applied to the commit, and with a pin and a first filtered parent, the parent's tree on the
pinned set laid over the rest. The filter's `Meta` options are already propagated into it, and
the parent's tree is `filtered_parent_tree_id` of the first filtered parent. `optimize` runs on
fuel. -/
def perRevTree (env : ApplyEnv) (fuel : Nat) (noSplice : Bool) (commitFilter : Op) (x : Rewrite)
    (firstParent : Option Obj) : Except String Obj := do
  let legalizedA := legalizePin Op.select (peelOp commitFilter)
  let legalizedB := legalizePin Op.exclude (peelOp commitFilter)
  let usesPin := legalizedA != legalizedB
  if usesPin && !noSplice then
    throw ("combining :pin with history splicing is not supported; " ++
      "set the \"no-splice\" history flag")
  let pinDetails ← match firstParent with
    | some parentTree =>
      if usesPin then do
        let optimized ← match optimize fuel (.subtract legalizedA legalizedB) with
          | some f => .ok f
          | none => .error "optimize: out of fuel"
        let pinSubtract ← apply env optimized x
        .ok (some (pinSubtract.tree, intersect parentTree pinSubtract.tree))
      else .ok none
    | none => .ok none
  let treeData ← apply env commitFilter x
  match pinDetails with
  | some (pinSubtract, pinOverlay) => .ok (overlay pinOverlay (subtract treeData.tree pinSubtract))
  | none => .ok treeData.tree

/-- With a pin, no splicing and a first parent, the tree is the parent's on the pinned set laid
over the filter's output less the pinned set. -/
theorem perRevTree_pinned {env : ApplyEnv} {fuel : Nat} {F opt : Op} {x s r : Rewrite} {P : Obj}
    (pins : legalizePin Op.select (peelOp F) ≠ legalizePin Op.exclude (peelOp F))
    (hopt : optimize fuel (.subtract (legalizePin Op.select (peelOp F))
      (legalizePin Op.exclude (peelOp F))) = some opt)
    (hs : apply env opt x = .ok s) (hr : apply env F x = .ok r) :
    perRevTree env fuel true F x (some P) =
      .ok (overlay (intersect P s.tree) (subtract r.tree s.tree)) := by
  simp [perRevTree, pins, hopt, hs, hr]

/-- On canonical trees the assembly is the path-map one. -/
theorem leaves_pinned {P R S : Obj} (cP : Canonical P) (cR : Canonical R) (cS : Canonical S) :
    (overlay (intersect P S) (subtract R S)).leaves =
      PathMap.overlay (PathMap.intersect P.leaves S.leaves) (PathMap.subtract R.leaves S.leaves) := by
  rw [(canonical_intersect cP cS).leaves_overlay (canonical_subtract cR cS),
    cP.leaves_intersect cS, cR.leaves_subtract cS]

/-- With a pin, no splicing and a first filtered parent, the commit's filtered tree is the
parent's at every blob path of the pinned set. At every other blob path it is the filter's own
output, provided neither the parent's tree nor the filter's output has a blob path strictly
above or below a pinned one. -/
theorem pin_holds_back_pinned_paths {env : ApplyEnv} {fuel : Nat} {F opt : Op} {x s r : Rewrite}
    {P : Obj} (pins : legalizePin Op.select (peelOp F) ≠ legalizePin Op.exclude (peelOp F))
    (hopt : optimize fuel (.subtract (legalizePin Op.select (peelOp F))
      (legalizePin Op.exclude (peelOp F))) = some opt)
    (hs : apply env opt x = .ok s) (hr : apply env F x = .ok r)
    (cP : Canonical P) (cR : Canonical r.tree) (cS : Canonical s.tree) :
    ∃ T, perRevTree env fuel true F x (some P) = .ok T ∧
      (∀ q, (s.tree.leaves q).isSome → T.leaves q = P.leaves q) ∧
      (PathMap.Apart P.leaves s.tree.leaves → PathMap.Apart r.tree.leaves s.tree.leaves →
        ∀ q, s.tree.leaves q = none → T.leaves q = r.tree.leaves q) := by
  refine ⟨_, perRevTree_pinned pins hopt hs hr, ?_⟩
  rw [leaves_pinned cP cR cS]
  exact ⟨fun q hq => PathMap.overlay_intersect_subtract_of_isSome _ _ hq,
    fun apartP apartR q hq => PathMap.overlay_intersect_subtract_of_apart apartP apartR hq⟩

/- A directory pinned whole whose paths the first parent did not have: none of them appears. -/
theorem pin_holds_back_new_directory :
    let t : Obj := .tree [("a", .tree, .tree [("x", .blob, .blob [1]), ("y", .blob, .blob [2])])]
    let F : Op := .pin (.file ["a"] ["a"])
    legalizePin Op.select (peelOp F) ≠ legalizePin Op.exclude (peelOp F) ∧
      optimize 10 (.subtract (legalizePin Op.select (peelOp F))
        (legalizePin Op.exclude (peelOp F))) = some (.select (.file ["a"] ["a"])) ∧
      apply UnapplyEnv.treesOnly.toApplyEnv (.select (.file ["a"] ["a"])) (.fromTree t) =
        .ok (.fromTree t) ∧
      apply UnapplyEnv.treesOnly.toApplyEnv F (.fromTree t) = .ok (.fromTree t) ∧
      Canonical emptyId ∧ Canonical t ∧
      ∃ T, perRevTree UnapplyEnv.treesOnly.toApplyEnv 10 true F (.fromTree t) (some emptyId) =
          .ok T ∧
        (∀ q, (t.leaves q).isSome → T.leaves q = emptyId.leaves q) ∧
        (PathMap.Apart emptyId.leaves t.leaves → PathMap.Apart t.leaves t.leaves →
          ∀ q, t.leaves q = none → T.leaves q = t.leaves q) := by
  intro t F
  have pins : legalizePin Op.select (peelOp F) ≠ legalizePin Op.exclude (peelOp F) := by
    decide +kernel
  have hopt : optimize 10 (.subtract (legalizePin Op.select (peelOp F))
      (legalizePin Op.exclude (peelOp F))) = some (.select (.file ["a"] ["a"])) := by
    decide +kernel
  have hs : apply UnapplyEnv.treesOnly.toApplyEnv (.select (.file ["a"] ["a"])) (.fromTree t) =
      .ok (.fromTree t) := by
    decide +kernel
  have hr : apply UnapplyEnv.treesOnly.toApplyEnv F (.fromTree t) = .ok (.fromTree t) := by
    decide +kernel
  have ct : Canonical t := ⟨by decide, rfl⟩
  exact ⟨pins, hopt, hs, hr, canonical_emptyId, ct,
    pin_holds_back_pinned_paths pins hopt hs hr canonical_emptyId ct ct⟩

/-- Where the first parent has a file and the pinned set a directory of that name, the parent's
file leaks into the commit's tree, although the filter's own output has nothing there and the
path is not pinned. -/
theorem pin_leaks_parent_file :
    let t : Obj := .tree [("a", .tree, .tree [("x", .blob, .blob [1]), ("y", .blob, .blob [2])])]
    let parent : Obj := .tree [("a", .blob, .blob [3])]
    let F : Op := .pin (.file ["a"] ["a"])
    optimize 10 (.subtract (legalizePin Op.select (peelOp F)) (legalizePin Op.exclude (peelOp F))) =
        some (.select (.file ["a"] ["a"])) ∧
      apply UnapplyEnv.treesOnly.toApplyEnv (.select (.file ["a"] ["a"])) (.fromTree t) =
        .ok (.fromTree t) ∧
      apply UnapplyEnv.treesOnly.toApplyEnv F (.fromTree t) = .ok (.fromTree t) ∧
      perRevTree UnapplyEnv.treesOnly.toApplyEnv 10 true F (.fromTree t) (some parent) =
        .ok parent ∧
      t.leaves ["a"] = none ∧ parent.leaves ["a"] = some (.blob, .blob [3]) := by
  intro t parent F
  exact ⟨by decide +kernel, by decide +kernel, by decide +kernel, by decide +kernel, by decide,
    by decide⟩

end Josh
