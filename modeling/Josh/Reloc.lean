import Josh.TreeOps
import Josh.Unapply

/-! Relocation filters: chains of `Subdir` and `Prefix`, with `Nop`, `Empty` and `Meta`, which
move one part of a tree to another place. On the leaves of a tree `apply` computes the
relocation such a filter denotes, `invert` gives the relocation back, and `unapply` is the
put-back of the lens the relocation makes. So both laws of reversible filtering hold for them:
filtering what was put back gives the view, and putting back an unchanged view gives the
parent. A `Compose` whose members collide breaks both. -/

namespace Josh

open PathMap

/-- A path `Subdir` and `Prefix` move a tree by: not the root, and of names a tree can hold. -/
def ValidPath (p : Path) : Prop := p ≠ [] ∧ ∀ c ∈ p, ValidName c

instance : DecidablePred ValidPath := fun p =>
  inferInstanceAs (Decidable (p ≠ [] ∧ ∀ c ∈ p, ValidName c))

/-- The filters that only relocate a tree. -/
inductive Op.IsReloc : Op → Prop
  | nop : Op.IsReloc .nop
  | empty : Op.IsReloc .empty
  | subdir {p : Path} : ValidPath p → Op.IsReloc (.subdir p)
  | prefixDir {p : Path} : ValidPath p → Op.IsReloc (.prefixDir p)
  | chain {fs : List Op} : (∀ f ∈ fs, Op.IsReloc f) → Op.IsReloc (.chain fs)
  | «meta» {m : List (String × String)} {f : Op} : Op.IsReloc f → Op.IsReloc (.«meta» m f)

/-- The relocation a filter of `IsReloc` denotes: a chain composes those of its filters in
order. -/
def Op.reloc : Op → Reloc String
  | .nop => some ([], [])
  | .subdir p => some (p, [])
  | .prefixDir p => some ([], p)
  | .chain fs => relocChain fs
  | .«meta» _ f => f.reloc
  | _ => none
where
  relocChain : List Op → Reloc String
    | [] => some ([], [])
    | f :: fs => f.reloc.comp (relocChain fs)

/-- Running two chains one after the other relocates as the joined chain. -/
theorem relocChain_append {β : Type} (a b : List Op) {m : Map String β} (root : m [] = none) :
    (Op.reloc.relocChain (a ++ b)).sem m =
      (Op.reloc.relocChain b).sem ((Op.reloc.relocChain a).sem m) := by
  induction a generalizing m with
  | nil => rw [List.nil_append, Op.reloc.relocChain, Reloc.sem_nil root]
  | cons f a ih =>
    rw [List.cons_append, Op.reloc.relocChain, Op.reloc.relocChain, Reloc.sem_comp,
      Reloc.sem_comp, ih (Reloc.sem_root _ _)]

section Apply

variable (env : ApplyEnv)

/-- `Subdir` takes the subtree at its path, or the empty tree where there is none. -/
theorem subdir_reloc {p : Path} (hp : ValidPath p) (n : Nat) {x : Rewrite}
    (cx : Canonical x.tree) :
    ∃ t, applyImpl env (n + 1) (.subdir p) x = .ok (x.withTree t) ∧ Canonical t ∧
      t.leaves = move p [] x.tree.leaves := by
  refine ⟨_, rfl, ?_⟩
  split
  · rename_i e found
    split_ifs with ht
    · obtain ⟨we, ke⟩ := wf_of_getPathEntry hp.1 cx found
      exact ⟨⟨we, ke ▸ ht⟩, leaves_getPathEntry hp.1 found ht⟩
    · -- a file at the path: nothing lies below it
      refine ⟨canonical_emptyId, ?_⟩
      rw [leaves_emptyId, move_eq_empty_of_getPathEntry hp.1]
      intro e' found'
      rw [found] at found'
      cases found'
      simpa using ht
  · rename_i missing
    refine ⟨canonical_emptyId, ?_⟩
    rw [leaves_emptyId, move_eq_empty_of_getPathEntry hp.1]
    intro e' found'
    exact absurd found' (by simp [missing])

/-- `Prefix` builds the tree around its input. -/
theorem prefixDir_reloc {p : Path} (hp : ValidPath p) (n : Nat) {x : Rewrite}
    (cx : Canonical x.tree) :
    ∃ t, applyImpl env (n + 1) (.prefixDir p) x = .ok (x.withTree t) ∧ Canonical t ∧
      t.leaves = move [] p x.tree.leaves := by
  obtain ⟨w, tt⟩ := wf_pathTree hp.2 cx.wf cx.isTree
  refine ⟨pathTree p x.tree, ?_, ⟨w, tt⟩, leaves_pathTree p x.tree⟩
  have built := insertOid_emptyId hp.1 x.tree
  simp only [applyImpl, peelOp, built, Except.ok_bind]

/-- What a relocation filter does to a rewrite: the fuel suffices, the commit data stay, and the
tree is replaced by a canonical one holding the relocated leaves. -/
def RelocRun (n : Nat) (f : Op) : Prop :=
  ∀ x : Rewrite, Canonical x.tree →
    ∃ t, applyImpl env n f x = .ok (x.withTree t) ∧ Canonical t ∧
      t.leaves = f.reloc.sem x.tree.leaves

/-- A chain runs its filters one after another, each with the fuel of the chain. -/
theorem chain_reloc {fs : List Op} {k : Nat} (hk : Op.depth.depthList fs ≤ k)
    (ih : ∀ f ∈ fs, ∀ n, f.depth ≤ n → RelocRun env n f) :
    ∀ x : Rewrite, Canonical x.tree →
      ∃ t, fs.foldlM (fun r f => applyImpl env k f r) x = .ok (x.withTree t) ∧ Canonical t ∧
        t.leaves = (Op.reloc.relocChain fs).sem x.tree.leaves := by
  induction fs with
  | nil => exact fun x cx => ⟨x.tree, rfl, cx, (Reloc.sem_nil (leaves_root _)).symm⟩
  | cons f fs ihs =>
    intro x cx
    have hf : f.depth ≤ k := le_trans (le_max_left _ _) hk
    have hfs : Op.depth.depthList fs ≤ k := le_trans (le_max_right _ _) hk
    obtain ⟨t₁, h₁, c₁, l₁⟩ := ih f List.mem_cons_self k hf x cx
    obtain ⟨t₂, h₂, c₂, l₂⟩ :=
      ihs hfs (fun g hg => ih g (List.mem_cons_of_mem f hg)) (x.withTree t₁) c₁
    refine ⟨t₂, ?_, c₂, ?_⟩
    · rw [Except.foldlM_cons_of_ok fs h₁, h₂, Rewrite.withTree_withTree]
    · rw [l₂, Rewrite.tree_withTree, l₁, Op.reloc.relocChain, Reloc.sem_comp]

/-- `apply_impl` on a relocation filter, with fuel for its depth. -/
theorem applyImpl_reloc {f : Op} (hf : f.IsReloc) : ∀ n, f.depth ≤ n → RelocRun env n f := by
  induction hf with
  | nop =>
    rintro (_ | k) hn x cx
    · simp [Op.depth] at hn
    · exact ⟨x.tree, rfl, cx, (Reloc.sem_nil (leaves_root _)).symm⟩
  | empty =>
    rintro (_ | k) hn x cx
    · simp [Op.depth] at hn
    · exact ⟨emptyId, rfl, canonical_emptyId, rfl⟩
  | subdir hp =>
    rintro (_ | k) hn x cx
    · simp [Op.depth] at hn
    · exact subdir_reloc env hp k cx
  | prefixDir hp =>
    rintro (_ | k) hn x cx
    · simp [Op.depth] at hn
    · exact prefixDir_reloc env hp k cx
  | chain _ ih =>
    rintro (_ | k) hn x cx
    · simp [Op.depth] at hn
    · exact chain_reloc env (Nat.le_of_succ_le_succ hn) ih x cx
  | «meta» _ ih =>
    intro n hn x cx
    rw [applyImpl_meta]
    exact ih n hn x cx

theorem apply_reloc {f : Op} (hf : f.IsReloc) {x : Rewrite} (cx : Canonical x.tree) :
    ∃ t, apply env f x = .ok (x.withTree t) ∧ Canonical t ∧
      t.leaves = f.reloc.sem x.tree.leaves :=
  applyImpl_reloc env hf f.depth le_rfl x cx

end Apply

section Invert

/-- What `invert` gives for a relocation filter: a relocation filter that moves back what the
filter moved, and whose inverse is the filter again. -/
def InvertsReloc (f g : Op) : Prop :=
  invert f = .ok g ∧ g.IsReloc ∧ invert g = .ok f ∧
    ∀ m : Map String (Mode × Obj), m [] = none → g.reloc.sem m = f.reloc.inv.sem m

/-- A chain is inverted filter by filter, from its last. -/
theorem invertRev_reloc {fs : List Op} (ih : ∀ f ∈ fs, ∃ g, InvertsReloc f g) :
    ∃ gs, invertRev fs = .ok gs ∧ (∀ g ∈ gs, g.IsReloc) ∧ invertRev gs = .ok fs ∧
      ∀ m : Map String (Mode × Obj), m [] = none →
        (Op.reloc.relocChain gs).sem m = (Op.reloc.relocChain fs).inv.sem m := by
  induction fs with
  | nil => exact ⟨[], rfl, by simp, rfl, fun _ _ => rfl⟩
  | cons f fs ihs =>
    obtain ⟨g, hg, rg, gg, sg⟩ := ih f List.mem_cons_self
    obtain ⟨gs, hgs, rgs, ggs, sgs⟩ := ihs fun f' hf' => ih f' (List.mem_cons_of_mem f hf')
    refine ⟨gs ++ [g], ?_, ?_, invertRev_append_singleton ggs gg, ?_⟩
    · simp [invertRev, hgs, hg]
    · intro g' hg'
      rcases List.mem_append.mp hg' with hg' | hg'
      · exact rgs g' hg'
      · rw [List.mem_singleton.mp hg']
        exact rg
    · intro m root
      have last : (Op.reloc.relocChain [g]).sem ((Op.reloc.relocChain gs).sem m) =
          g.reloc.sem ((Op.reloc.relocChain gs).sem m) := by
        rw [Op.reloc.relocChain, Op.reloc.relocChain, Reloc.sem_comp,
          Reloc.sem_nil (Reloc.sem_root _ _)]
      rw [relocChain_append gs [g] root, last, sgs m root, sg _ (Reloc.sem_root _ _),
        Op.reloc.relocChain, Reloc.inv_sem_comp]

theorem invert_reloc {f : Op} (hf : f.IsReloc) : ∃ g, InvertsReloc f g := by
  induction hf with
  | nop => exact ⟨.nop, rfl, .nop, rfl, fun _ _ => rfl⟩
  | empty => exact ⟨.empty, rfl, .empty, rfl, fun _ _ => rfl⟩
  | subdir hp => exact ⟨.prefixDir _, rfl, .prefixDir hp, rfl, fun _ _ => rfl⟩
  | prefixDir hp => exact ⟨.subdir _, rfl, .subdir hp, rfl, fun _ _ => rfl⟩
  | chain _ ih =>
    obtain ⟨gs, hgs, rgs, ggs, sgs⟩ := invertRev_reloc ih
    exact ⟨.chain gs, by simp [invert, hgs], .chain rgs, by simp [invert, ggs], sgs⟩
  | @«meta» m f _ ih =>
    obtain ⟨g, hg, rg, gg, sg⟩ := ih
    exact ⟨.«meta» m g, by simp [invert, hg], .«meta» rg, by simp [invert, gg], sg⟩

end Invert

section Unapply

variable (env : UnapplyEnv)

/-- `unapply` on a relocation filter puts the new view back as the lens of its relocation does:
mapped back, over what of the parent the filter does not see. -/
theorem unapply_reloc {f : Op} (hf : f.IsReloc) {T P : Obj} (cT : Canonical T)
    (cP : Canonical P) :
    ∃ R, unapply env f T P = .ok R ∧ Canonical R ∧ R.leaves = f.reloc.put T.leaves P.leaves := by
  obtain ⟨g, hg, rg, gg, sg⟩ := invert_reloc hf
  -- the view of the parent, what of the parent it shows mapped back, and the new view mapped back
  obtain ⟨t₁, h₁, c₁, l₁⟩ := apply_reloc env.toApplyEnv hf (x := .fromTree P) cP
  obtain ⟨t₂, h₂, c₂, l₂⟩ := apply_reloc env.toApplyEnv rg (x := .fromTree t₁) c₁
  obtain ⟨t₃, h₃, c₃, l₃⟩ := apply_reloc env.toApplyEnv rg (x := .fromTree T) cT
  have stripped := canonical_subtract cP c₂
  refine ⟨overlay t₃ (subtract P t₂), ?_, canonical_overlay c₃ stripped, ?_⟩
  · rw [Rewrite.fromTree_withTree] at h₁ h₂ h₃
    simp only [unapply, hg, unapplyInverted, gg, Except.ok_bind, h₁, h₂, h₃,
      Rewrite.tree_fromTree]
  · rw [Rewrite.tree_fromTree] at l₁ l₂ l₃
    rw [c₃.leaves_overlay stripped, cP.leaves_subtract c₂, l₃, l₂, l₁,
      sg _ (leaves_root T), sg _ (Reloc.sem_root _ _)]
    rfl

/-- An environment of trees alone: every delegated branch fails and no object is found by id. -/
def UnapplyEnv.treesOnly : UnapplyEnv where
  message _ _ _ := .error "no commit"
  adapt _ _ := .error "no adapter"
  unlink _ := .error "no links"
  link _ _ := .error "no links"
  regexReplace _ _ _ := .error "no regex"
  pattern _ _ := .error "no glob"
  paths _ := .error "no paths"
  index _ _ := .error "no index"
  invertPaths _ := .error "no paths"
  workspace _ _ := .error "no workspace"
  stored _ _ := .error "no workspace"
  starlark _ _ _ := .error "no script"
  objectDeref _ _ := .error "no objects"
  unapply _ _ _ := .error "no commits"
  lookup _ := none
  oidHex _ := ""
  perRev _ _ _ := .ok none

end Unapply

end Josh
