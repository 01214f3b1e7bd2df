import Josh.Opt.Optimize
import Josh.Lib.Option

/-! What the optimizer keeps of invertibility. Every rule of `step`, `flatten` and `simplify`
builds its result from parts of the filter it rewrites and from ops that invert, and `Subtract`,
the one rule that makes ops `invert` rejects, only fires on a filter that does not invert itself
(outside a `Pin`, which inverts whatever it holds). So a filter that inverts is optimized and
minimized to one that inverts. On the filters that only move, select and drop paths, `invert`
is its own inverse. -/

namespace Josh

/- A filter inverts when `invert` succeeds on it. -/
def Invertible (f : Op) : Prop := (invert f).isOk = true

theorem invertible_iff {f : Op} : Invertible f ↔ ∃ g, invert f = .ok g := by
  unfold Invertible
  cases invert f <;> simp [Except.isOk, Except.toBool]

theorem invertList_isOk (fs : List Op) :
    (invertList fs).isOk = true ↔ ∀ f ∈ fs, Invertible f := by
  induction fs with
  | nil => simp [invertList, Except.isOk, Except.toBool]
  | cons f fs ih =>
    rw [List.forall_mem_cons, ← ih, invertible_iff]
    simp only [invertList]
    cases invert f <;> cases invertList fs <;> simp [Except.isOk, Except.toBool, bind, Except.bind]

theorem invertRev_isOk (fs : List Op) :
    (invertRev fs).isOk = true ↔ ∀ f ∈ fs, Invertible f := by
  induction fs with
  | nil => simp [invertRev, Except.isOk, Except.toBool]
  | cons f fs ih =>
    rw [List.forall_mem_cons, ← ih, invertible_iff, and_comm]
    simp only [invertRev]
    cases invert f <;> cases invertRev fs <;> simp [Except.isOk, Except.toBool, bind, Except.bind]

/-! The ops that invert, one by one. -/

@[simp] theorem invertible_chain {fs : List Op} : Invertible (.chain fs) ↔ ∀ f ∈ fs, Invertible f := by
  rw [← invertRev_isOk]
  unfold Invertible
  rw [invert_chain]
  cases invertRev fs <;> rfl

@[simp] theorem invertible_compose {fs : List Op} :
    Invertible (.compose fs) ↔ ∀ f ∈ fs, Invertible f := by
  rw [← invertList_isOk]
  unfold Invertible
  rw [invert_compose]
  cases invertList fs <;> rfl

@[simp] theorem invertible_exclude {f : Op} : Invertible (.exclude f) ↔ Invertible f := by
  unfold Invertible
  rw [invert_exclude]
  cases invert f <;> rfl

@[simp] theorem invertible_select {f : Op} : Invertible (.select f) ↔ Invertible f := by
  unfold Invertible
  rw [invert_select]
  cases invert f <;> rfl

@[simp] theorem invertible_meta {m : List (String × String)} {f : Op} :
    Invertible (.«meta» m f) ↔ Invertible f := by
  unfold Invertible
  rw [invert_meta]
  cases invert f <;> rfl

@[simp] theorem invertible_pin (f : Op) : Invertible (.pin f) := rfl

@[simp] theorem invertible_nop : Invertible .nop := rfl

@[simp] theorem invertible_empty : Invertible .empty := rfl

@[simp] theorem invertible_subdir (p : Path) : Invertible (.subdir p) := rfl

@[simp] theorem invertible_prefixDir (p : Path) : Invertible (.prefixDir p) := rfl

@[simp] theorem invertible_file (d s : Path) : Invertible (.file d s) := rfl

@[simp] theorem invertible_insert (p : Path) (c : InsertContent) : Invertible (.insert p c) := rfl

@[simp] theorem invertible_treeId (p : Path) (f : Op) : Invertible (.treeId p f) := rfl

@[simp] theorem not_invertible_subtract (a b : Op) : ¬ Invertible (.subtract a b) := by
  simp [Invertible, invert_subtract, Except.isOk, Except.toBool]

@[simp] theorem not_invertible_rev (arms : List (RevMatch × LazyRef × Op)) :
    ¬ Invertible (.rev arms) := by
  simp [Invertible, invert_rev, Except.isOk, Except.toBool]

@[simp] theorem not_invertible_starlark (p : Path) (f : Op) : ¬ Invertible (.starlark p f) := by
  simp [Invertible, invert_starlark, Except.isOk, Except.toBool]

/-! ### The parts the rules take filters apart into -/

theorem invertible_of_mem_splice {f g : Op} (hf : Invertible f) (hg : g ∈ f.splice) :
    Invertible g := by
  unfold Op.splice at hg
  split at hg
  · exact invertible_chain.mp hf g hg
  · rwa [List.mem_singleton.mp hg]

theorem invertible_of_mem_spliceCompose {f g : Op} (hf : Invertible f) (hg : g ∈ f.spliceCompose) :
    Invertible g := by
  unfold Op.spliceCompose at hg
  split at hg
  · exact invertible_compose.mp hf g hg
  · rwa [List.mem_singleton.mp hg]

/- The last filter of a chain and the chain before it invert when the chain does. -/
theorem lastChain_invertible (rest f : Op) (hr : Invertible rest) (hf : Invertible f) :
    Invertible (lastChain rest f).1 ∧ Invertible (lastChain rest f).2 := by
  refine (lastChain.mutual_induct
    (fun rest f => Invertible rest → Invertible f →
      Invertible (lastChain rest f).1 ∧ Invertible (lastChain rest f).2)
    (fun rest pre fs => Invertible rest → (∀ p ∈ pre, Invertible p) → (∀ f ∈ fs, Invertible f) →
      Invertible (lastChainList rest pre fs).1 ∧ Invertible (lastChainList rest pre fs).2)
    ?_ ?_ ?_ ?_ ?_).1 rest f hr hf
  · intro rest filters ih hr hf
    rw [lastChain]
    exact ih hr (by simp) (invertible_chain.mp hf)
  · intro rest filter notChain hr hf
    rw [lastChain]
    · exact ⟨hr, hf⟩
    · exact notChain
  · intro rest pre hr _ _
    simp [lastChainList, hr]
  · intro rest pre last ih hr hpre hl
    rw [lastChainList]
    exact ih (invertible_chain.mpr (by simpa [hr] using hpre)) (hl last List.mem_cons_self)
  · intro rest pre f more notLast ih hr hpre hl
    rw [lastChainList]
    · refine ih hr (fun p hp => ?_) fun g hg => hl g (List.mem_cons_of_mem f hg)
      rcases List.mem_append.mp hp with hp | hp
      exacts [hpre p hp, List.mem_singleton.mp hp ▸ hl f List.mem_cons_self]
    · exact notLast

theorem appended {rest : List Op} {r : Op} (hs : ∀ x ∈ rest, Invertible x) (hr : Invertible r) :
    ∀ x ∈ rest ++ [r], Invertible x := by
  intro x hx
  rcases List.mem_append.mp hx with hx | hx
  exacts [hs x hx, List.mem_singleton.mp hx ▸ hr]

theorem commonPre_invertible {filters : List Op} {common : Op} {rest : List Op}
    (h : commonPre filters = some (common, rest)) (hl : ∀ f ∈ filters, Invertible f) :
    Invertible common ∧ ∀ r ∈ rest, Invertible r := by
  unfold commonPre at h
  simp only [Option.bind_eq_bind, Option.bind_eq_some_iff] at h
  obtain ⟨⟨c, rest'⟩, hfold, c', hc, h⟩ := h
  split_ifs at h
  cases h
  -- the first filter and the rests of the chains scanned so far all invert
  have scan := Option.foldlM_invariant
    (fun s => (∀ x, s.1 = some x → Invertible x) ∧ ∀ r ∈ s.2, Invertible r) Invertible
    (fun s f s' hs hf h => by
      unfold commonPreStep at h
      split at h
      · rename_i c rest first more
        have hchain := invertible_chain.mp hf
        have hrest : Invertible (if more = [] then Op.nop else .chain more) := by
          split_ifs
          · exact invertible_nop
          · exact invertible_chain.mpr fun g hg => hchain g (List.mem_cons_of_mem first hg)
        dsimp only at h
        generalize (if more = [] then Op.nop else .chain more) = restChain at h hrest
        split at h
        · cases h
          exact ⟨by simpa using hchain first List.mem_cons_self, appended hs.2 hrest⟩
        · split_ifs at h
          cases h
          exact ⟨hs.1, appended hs.2 hrest⟩
      · cases h)
    filters _ _ ⟨by simp, by simp⟩ hl hfold
  exact ⟨scan.1 _ hc, scan.2⟩

theorem commonPost_invertible {filters : List Op} {common : Op} {rest : List Op}
    (h : commonPost filters = some (common, rest)) (hl : ∀ f ∈ filters, Invertible f) :
    Invertible common ∧ ∀ r ∈ rest, Invertible r := by
  unfold commonPost at h
  simp only [Option.bind_eq_bind, Option.bind_eq_some_iff] at h
  obtain ⟨⟨cp, rest'⟩, hfold, c', hc, h⟩ := h
  have result : common = c' ∧ rest = rest' := by
    split_ifs at h <;> (cases h; exact ⟨rfl, rfl⟩)
  obtain ⟨rfl, rfl⟩ := result
  -- the last filter and what comes before it in the chains scanned so far all invert
  have scan := Option.foldlM_invariant
    (fun s => (∀ x, s.1 = some x → Invertible x) ∧ ∀ r ∈ s.2, Invertible r) Invertible
    (fun s f s' hs hf h => by
      unfold commonPostStep at h
      have parts := lastChain_invertible .nop f invertible_nop hf
      dsimp only at h
      split_ifs at h with same
      cases h
      refine ⟨fun x hx => ?_, appended hs.2 parts.1⟩
      cases hx
      cases h₁ : s.1 with
      | none => simpa [h₁] using parts.2
      | some y => simpa [h₁] using hs.1 y h₁)
    filters _ _ ⟨by simp, by simp⟩ hl hfold
  exact ⟨scan.1 _ hc, scan.2⟩

theorem mem_groupRuns {joins : Op → Op → Bool} {filters : List Op} {grp : List Op}
    (hg : grp ∈ groupRuns joins filters) {f : Op} (hf : f ∈ grp) : f ∈ filters := by
  -- every member of every group so far is a member scanned so far
  have runs : ∀ (l acc : List (List Op)) (fs : List Op), (∀ g ∈ acc, ∀ x ∈ g, x ∈ l.flatten) →
      (∀ x ∈ fs, x ∈ l.flatten) → ∀ g ∈ fs.foldl (groupStep joins) acc, ∀ x ∈ g, x ∈ l.flatten := by
    intro l acc fs hacc hfs
    induction fs generalizing acc with
    | nil => exact hacc
    | cons y ys ih =>
      refine ih _ (fun g hg x hx => ?_) fun x hx => hfs x (List.mem_cons_of_mem y hx)
      unfold groupStep at hg
      split at hg
      · split_ifs at hg
        · rcases List.mem_cons.mp hg with rfl | hg
          · rcases List.mem_append.mp hx with hx | hx
            · exact hacc _ List.mem_cons_self x hx
            · rw [List.mem_singleton.mp hx]
              exact hfs y List.mem_cons_self
          · exact hacc g (List.mem_cons_of_mem _ hg) x hx
        · rcases List.mem_cons.mp hg with rfl | hg
          · rw [List.mem_singleton.mp hx]
            exact hfs y List.mem_cons_self
          · exact hacc g hg x hx
      · rcases List.mem_cons.mp hg with rfl | hg
        · rw [List.mem_singleton.mp hx]
          exact hfs y List.mem_cons_self
        · exact hacc g hg x hx
  have := runs [filters] [] filters (by simp) (by simp) grp (List.mem_reverse.mp hg) f hf
  simpa using this

theorem mem_group {filters : List Op} {grp : List Op} (hg : grp ∈ group filters) {f : Op}
    (hf : f ∈ grp) : f ∈ filters := by
  unfold group at hg
  dsimp only at hg
  split_ifs at hg
  · exact mem_groupRuns hg hf
  · exact mem_groupRuns hg hf

theorem mem_prefixSort {filters : List Op} {f : Op} (hf : f ∈ prefixSort filters) :
    f ∈ filters := by
  unfold prefixSort at hf
  split_ifs at hf
  · exact hf
  · unfold topoSortWithTiebreak at hf
    obtain ⟨i, _, hi⟩ := List.mem_filterMap.mp hf
    exact List.mem_of_getElem? hi

/-! ### The rules of `step` -/

/- A partial rewrite of filters that takes filters that invert to filters that invert. -/
def KeepsInvertible (t : Op → Option Op) : Prop :=
  ∀ f g, t f = some g → Invertible f → Invertible g

theorem KeepsInvertible.mapM {t : Op → Option Op} (keep : KeepsInvertible t) {l r : List Op}
    (h : l.mapM t = some r) (hl : ∀ f ∈ l, Invertible f) : ∀ g ∈ r, Invertible g := by
  intro g hg
  obtain ⟨f, hf, hfg⟩ := Option.exists_of_mem_mapM h hg
  exact keep f g hfg (hl f hf)

section Rules

variable {st : Op → Option Op}

theorem stepChainPairs_invertible (keep : KeepsInvertible st) (l : List Op)
    (hl : ∀ f ∈ l, Invertible f) {out : List Op} (h : stepChainPairs st l = some (some out)) :
    ∀ g ∈ out, Invertible g := by
  induction l using stepChainPairs.induct generalizing out with
  | case1 b rest ih =>
    rw [stepChainPairs, if_pos rfl] at h
    exact ih (fun f hf => hl f (by simp [hf])) h
  | case2 a b rest ne empties =>
    rw [stepChainPairs, if_neg ne, if_pos empties] at h
    cases h
  | case3 a b rest ne notEmpties ih =>
    rw [stepChainPairs, if_neg ne, if_neg notEmpties] at h
    simp only [Option.bind_eq_bind, Option.bind_eq_some_iff, Option.some.injEq,
      Option.map_eq_some_iff] at h
    obtain ⟨f, hf, kept, hkept, out', rfl, rfl⟩ := h
    intro g hg
    rcases List.mem_cons.mp hg with rfl | hg
    · exact keep _ _ hf (invertible_prefixDir a)
    · exact ih (fun x hx => hl x (List.mem_cons_of_mem _ hx)) hkept g hg
  | case4 f rest notPair ih =>
    rw [stepChainPairs.eq_def] at h
    split at h
    · rename_i heq
      simp only [List.cons.injEq] at heq
      exact (notPair _ _ _ heq.1 heq.2).elim
    · rename_i heq
      obtain ⟨rfl, rfl⟩ := List.cons.inj heq
      simp only [Option.bind_eq_bind, Option.bind_eq_some_iff, Option.some.injEq,
        Option.map_eq_some_iff] at h
      obtain ⟨g, hg, kept, hkept, out', rfl, rfl⟩ := h
      intro x hx
      rcases List.mem_cons.mp hx with rfl | hx
      · exact keep _ _ hg (hl _ List.mem_cons_self)
      · exact ih (fun y hy => hl y (List.mem_cons_of_mem _ hy)) hkept x hx
    · rename_i heq
      cases heq
  | case5 =>
    rw [stepChainPairs] at h
    cases h
    simp

theorem stepChain_invertible (keep : KeepsInvertible st) {filters : List Op} {g : Op}
    (h : stepChain st filters = some g) (hl : ∀ f ∈ filters, Invertible f) : Invertible g := by
  unfold stepChain at h
  simp only [Option.bind_eq_bind, Option.bind_eq_some_iff] at h
  obtain ⟨stepped, hstepped, h⟩ := h
  have flat : ∀ f ∈ (stepped.flatMap Op.splice).filter (· ≠ .nop), Invertible f := by
    intro f hf
    obtain ⟨x, hx, hfx⟩ := List.mem_flatMap.mp (List.mem_filter.mp hf).1
    exact invertible_of_mem_splice (keep.mapM hstepped hl x hx) hfx
  generalize (stepped.flatMap Op.splice).filter (· ≠ .nop) = flattened at h flat
  split at h
  · cases h
    exact invertible_nop
  split at h
  -- an `Empty` that nothing after it undoes empties the chain
  split at h
  · cases h
    exact invertible_empty
  -- both ways on, the chain is made of what the scan of its pairs keeps
  all_goals
    obtain ⟨r, hr, h⟩ := Option.bind_eq_some_iff.mp h
    split at h <;> cases h
    · exact invertible_empty
    · exact invertible_nop
    · exact stepChainPairs_invertible keep flattened flat hr _ List.mem_cons_self
    · exact invertible_chain.mpr (stepChainPairs_invertible keep flattened flat hr)

theorem stepCompose_invertible (keep : KeepsInvertible st) {filters : List Op} {g : Op}
    (h : stepCompose st filters = some g) (hl : ∀ f ∈ filters, Invertible f) : Invertible g := by
  unfold stepCompose at h
  have kept : ∀ f ∈ (filters.destutter (· ≠ ·)).filter (· ≠ .empty), Invertible f :=
    fun f hf => hl f ((List.destutter_sublist _ _).subset (List.mem_filter.mp hf).1)
  dsimp only at h
  generalize (filters.destutter (· ≠ ·)).filter (· ≠ .empty) = members at h kept
  split at h
  · -- the first filter all members' chains share, then the compose of the rests
    rename_i common rest pre
    cases h
    obtain ⟨hc, hr⟩ := commonPre_invertible pre kept
    simpa [hc] using hr
  split at h
  · -- the compose of what comes before the last filter all members share, then that filter
    rename_i common rest post
    cases h
    obtain ⟨hc, hr⟩ := commonPost_invertible post kept
    simpa [hc] using hr
  split_ifs at h
  · -- a compose of the groups
    cases h
    simp only [invertible_compose, List.mem_map]
    rintro _ ⟨grp, hg, rfl⟩
    exact invertible_compose.mpr fun f hf => kept f (mem_group hg hf)
  · -- each member stepped, in the order of `prefix_sort`
    obtain ⟨stepped, hs, h⟩ := Option.bind_eq_some_iff.mp h
    cases h
    exact invertible_compose.mpr (keep.mapM hs fun f hf => kept f (mem_prefixSort hf))

end Rules

theorem step_keepsInvertible (n : Nat) : KeepsInvertible (step n) := by
  induction n with
  | zero =>
    intro f g h
    cases h
  | succ n ih =>
    intro f g h hf
    rw [step.eq_def] at h
    dsimp only at h
    split at h
    · cases h
      exact invertible_nop
    · -- a longer path is a chain of one-name steps
      cases h
      split_ifs <;> simp
    · cases h
      exact invertible_nop
    · cases h
      split_ifs <;> simp
    · -- an insert below a directory is an insert at the top, moved there
      split_ifs at h
      · split at h <;> cases h <;> simp
      · cases h
        exact hf
    · -- a copy between directories is a copy between names, moved there
      split_ifs at h
      · split at h <;> cases h <;> simp
      · cases h
        exact hf
    · exact absurd hf (not_invertible_rev _)
    · cases h
      exact invertible_empty
    · cases h
      exact invertible_compose.mp hf _ List.mem_cons_self
    · exact stepCompose_invertible ih h (invertible_compose.mp hf)
    · exact stepChain_invertible ih h (invertible_chain.mp hf)
    · split_ifs at h
      · cases h
        exact invertible_empty
      · cases h
        exact invertible_nop
      · obtain ⟨b', hb', rfl⟩ := Option.map_eq_some_iff.mp h
        exact invertible_exclude.mpr (ih _ _ hb' (invertible_exclude.mp hf))
    · split_ifs at h
      · cases h
        exact invertible_empty
      · cases h
        exact invertible_nop
      · obtain ⟨b', hb', rfl⟩ := Option.map_eq_some_iff.mp h
        exact invertible_select.mpr (ih _ _ hb' (invertible_select.mp hf))
    · split_ifs at h
      · cases h
        exact invertible_nop
      · obtain ⟨b', _, rfl⟩ := Option.map_eq_some_iff.mp h
        exact invertible_pin b'
    · exact absurd hf (not_invertible_starlark _ _)
    · obtain ⟨sub', _, rfl⟩ := Option.map_eq_some_iff.mp h
      exact invertible_treeId _ sub'
    · exact absurd hf (not_invertible_subtract _ _)
    · cases h
      exact hf

/-! ### `flatten` and `simplify` -/

theorem firstCompose_mem {filters : List Op} {i : Nat} {members : List Op}
    (h : firstCompose filters = some (i, members)) : Op.compose members ∈ filters := by
  obtain ⟨⟨f, j⟩, hf, hm⟩ := List.exists_of_findSome?_eq_some h
  have hmem := List.fst_mem_of_mem_zipIdx hf
  dsimp only at hm hmem
  split at hm
  · cases hm
    exact hmem
  · cases hm

/- Distributing a chain over a compose copies the chain's other filters. -/
theorem distribute_invertible {full : Bool} {flattened : List Op} {d : Op}
    (h : distribute full flattened = some d) (hl : ∀ f ∈ flattened, Invertible f) :
    Invertible d := by
  unfold distribute at h
  split at h
  · cases h
  · rename_i i members first
    dsimp only at h
    split_ifs at h
    cases h
    have hm := invertible_compose.mp (hl _ (firstCompose_mem first))
    simp only [invertible_compose, List.mem_map]
    rintro _ ⟨m, hm', rfl⟩
    refine invertible_chain.mpr fun x hx => ?_
    rcases List.mem_or_eq_of_mem_set hx with hx | rfl
    · exact hl x hx
    · exact hm _ hm'

theorem flattenImpl_keepsInvertible (full : Bool) (n : Nat) :
    KeepsInvertible (flattenImpl full n) := by
  induction n with
  | zero =>
    intro f g h
    cases h
  | succ n ih =>
    intro f g h hf
    rw [flattenImpl.eq_def] at h
    dsimp only at h
    -- a changed result is flattened again
    have settle : ∀ r, Invertible r →
        (if r = f then some r else flattenImpl full n r) = some g → Invertible g := by
      intro r hr hs
      split_ifs at hs
      · cases hs
        exact hr
      · exact ih r g hs hr
    split at h
    · obtain ⟨out, hout, h⟩ := Option.bind_eq_some_iff.mp h
      refine settle _ (invertible_compose.mpr (ih.mapM hout fun x hx => ?_)) h
      obtain ⟨y, hy, hxy⟩ := List.mem_flatMap.mp hx
      exact invertible_of_mem_spliceCompose (invertible_compose.mp hf y hy) hxy
    · have flat : ∀ x ∈ _, Invertible x := fun x hx => by
        obtain ⟨y, hy, hxy⟩ := List.mem_flatMap.mp hx
        exact invertible_of_mem_splice (invertible_chain.mp hf y hy) hxy
      split at h
      · cases h
        exact distribute_invertible ‹_› flat
      · obtain ⟨out, hout, h⟩ := Option.bind_eq_some_iff.mp h
        exact settle _ (invertible_chain.mpr (ih.mapM hout flat)) h
    · exact absurd hf (not_invertible_subtract _ _)
    · obtain ⟨b, hb, h⟩ := Option.bind_eq_some_iff.mp h
      exact settle _ (invertible_exclude.mpr (ih _ _ hb (invertible_exclude.mp hf))) h
    · obtain ⟨b, hb, h⟩ := Option.bind_eq_some_iff.mp h
      exact settle _ (invertible_select.mpr (ih _ _ hb (invertible_select.mp hf))) h
    · obtain ⟨b, _, h⟩ := Option.bind_eq_some_iff.mp h
      exact settle _ (invertible_pin b) h
    · exact absurd hf (not_invertible_starlark _ _)
    · obtain ⟨sub, _, h⟩ := Option.bind_eq_some_iff.mp h
      exact settle _ (invertible_treeId _ sub) h
    · exact settle _ hf h

theorem mergePairs_invertible : ∀ {fs : List Op}, (∀ f ∈ fs, Invertible f) →
    ∀ g ∈ mergePairs fs, Invertible g := by
  intro fs
  induction fs using mergePairs.induct with
  | case1 x y rest ih =>
    intro hl g hg
    rw [mergePairs] at hg
    rcases List.mem_cons.mp hg with rfl | hg
    · exact invertible_prefixDir _
    · exact ih (fun f hf => hl f (by simp [hf])) g hg
  | case2 x y rest ih =>
    intro hl g hg
    rw [mergePairs] at hg
    rcases List.mem_cons.mp hg with rfl | hg
    · exact invertible_subdir _
    · exact ih (fun f hf => hl f (by simp [hf])) g hg
  | case3 f rest _ _ ih =>
    intro hl g hg
    rw [mergePairs] at hg
    · rcases List.mem_cons.mp hg with rfl | hg
      · exact hl _ List.mem_cons_self
      · exact ih (fun f hf => hl f (List.mem_cons_of_mem _ hf)) g hg
    all_goals assumption
  | case4 =>
    intro _ g hg
    simp [mergePairs] at hg

theorem simplify_keepsInvertible (n : Nat) : KeepsInvertible (simplify n) := by
  induction n with
  | zero =>
    intro f g h
    cases h
  | succ n ih =>
    intro f g h hf
    rw [simplify.eq_def] at h
    dsimp only at h
    -- a changed result is simplified again
    have settle : ∀ r, Invertible r →
        (if r = f then some r else simplify n r) = some g → Invertible g := by
      intro r hr hs
      split_ifs at hs
      · cases hs
        exact hr
      · exact ih r g hs hr
    split at h
    · obtain ⟨out, hout, h⟩ := Option.bind_eq_some_iff.mp h
      refine settle _ (invertible_compose.mpr (ih.mapM hout fun x hx => ?_)) h
      obtain ⟨y, hy, hxy⟩ := List.mem_flatMap.mp hx
      exact invertible_of_mem_spliceCompose (invertible_compose.mp hf y hy) hxy
    · obtain ⟨out, hout, h⟩ := Option.bind_eq_some_iff.mp h
      have merged := mergePairs_invertible (ih.mapM hout fun x hx => by
        obtain ⟨y, hy, hxy⟩ := List.mem_flatMap.mp hx
        exact invertible_of_mem_splice (invertible_chain.mp hf y hy) hxy)
      refine settle _ ?_ h
      -- one filter left stands alone
      split
      · exact merged _ (by simp [*])
      · exact invertible_chain.mpr merged
    · exact absurd hf (not_invertible_subtract _ _)
    · obtain ⟨b, hb, h⟩ := Option.bind_eq_some_iff.mp h
      exact settle _ (invertible_exclude.mpr (ih _ _ hb (invertible_exclude.mp hf))) h
    · obtain ⟨b, hb, h⟩ := Option.bind_eq_some_iff.mp h
      exact settle _ (invertible_select.mpr (ih _ _ hb (invertible_select.mp hf))) h
    · obtain ⟨b, _, h⟩ := Option.bind_eq_some_iff.mp h
      exact settle _ (invertible_pin b) h
    · exact absurd hf (not_invertible_starlark _ _)
    · obtain ⟨sub, _, h⟩ := Option.bind_eq_some_iff.mp h
      exact settle _ (invertible_treeId _ sub) h
    · exact settle _ hf h

/-! ### The optimizer -/

theorem iterate_keepsInvertible (fuel : Nat) : KeepsInvertible (iterate fuel) := by
  -- each round steps the filter, and the rounds stop on a fixed point or after a thousand
  have rounds : ∀ k, KeepsInvertible (iterate.rounds fuel k) := by
    intro k
    induction k with
    | zero =>
      intro f g h hf
      cases h
      exact hf
    | succ k ih =>
      intro f g h hf
      simp only [iterate.rounds, Option.bind_eq_bind, Option.bind_eq_some_iff] at h
      obtain ⟨optimized, hopt, h⟩ := h
      have stepped := step_keepsInvertible fuel f optimized hopt hf
      split_ifs at h
      · cases h
        exact hf
      · exact ih optimized g h stepped
  exact rounds 1000

theorem optimizeImpl_keepsInvertible (minimize : Bool) (fuel : Nat) :
    KeepsInvertible (optimizeImpl minimize fuel) := by
  -- the outer loop simplifies and iterates until simplifying settles
  have settle : ∀ k, KeepsInvertible (optimizeImpl.settle fuel k) := by
    intro k
    induction k with
    | zero =>
      intro f g h
      cases h
    | succ k ih =>
      intro f g h hf
      simp only [optimizeImpl.settle, Option.bind_eq_bind, Option.bind_eq_some_iff] at h
      obtain ⟨pretty, _, optimized, hopt, simplified, hsimp, h⟩ := h
      have iterated := iterate_keepsInvertible fuel f optimized hopt hf
      have again := simplify_keepsInvertible fuel optimized simplified hsimp iterated
      split_ifs at h
      · exact iterate_keepsInvertible fuel simplified g h again
      · exact ih simplified g h again
  intro f g h hf
  simp only [optimizeImpl, Option.bind_eq_bind, Option.bind_eq_some_iff] at h
  obtain ⟨flat, hflat, h⟩ := h
  exact settle fuel flat g h (flattenImpl_keepsInvertible minimize fuel f flat hflat hf)

/-! ### `invert` undoes itself on path filters -/

/- The filters that only move, select and drop paths. -/
inductive PathFilter : Op → Prop
  | nop : PathFilter .nop
  | empty : PathFilter .empty
  | subdir (path : Path) : PathFilter (.subdir path)
  | prefixDir (path : Path) : PathFilter (.prefixDir path)
  | file (dest source : Path) : PathFilter (.file dest source)
  | pattern (glob : String) : PathFilter (.pattern glob)
  | objectRef (path : Path) : PathFilter (.objectRef path)
  | objectDeref (path : Path) : PathFilter (.objectDeref path)
  | chain {filters : List Op} : (∀ f ∈ filters, PathFilter f) → PathFilter (.chain filters)
  | compose {filters : List Op} : (∀ f ∈ filters, PathFilter f) → PathFilter (.compose filters)
  | exclude {f : Op} : PathFilter f → PathFilter (.exclude f)
  | select {f : Op} : PathFilter f → PathFilter (.select f)
  | «meta» (m : List (String × String)) {f : Op} : PathFilter f → PathFilter (.«meta» m f)

/- A filter that inverts to one that inverts back to it. -/
def InvertsBack (f : Op) : Prop := ∃ g, invert f = .ok g ∧ invert g = .ok f

theorem invertList_back : ∀ {fs : List Op}, (∀ f ∈ fs, InvertsBack f) →
    ∃ gs, invertList fs = .ok gs ∧ invertList gs = .ok fs
  | [], _ => ⟨[], rfl, rfl⟩
  | f :: fs, h => by
    obtain ⟨g, there, back⟩ := h f List.mem_cons_self
    obtain ⟨gs, theres, backs⟩ := invertList_back fun x hx => h x (List.mem_cons_of_mem f hx)
    exact ⟨g :: gs, by simp [invertList, there, theres], by simp [invertList, back, backs]⟩

/- A chain inverts last filter first, so inverting twice restores the order. -/
theorem invertRev_back : ∀ {fs : List Op}, (∀ f ∈ fs, InvertsBack f) →
    ∃ gs, invertRev fs = .ok gs ∧ invertRev gs = .ok fs
  | [], _ => ⟨[], rfl, rfl⟩
  | f :: fs, h => by
    obtain ⟨g, there, back⟩ := h f List.mem_cons_self
    obtain ⟨gs, theres, backs⟩ := invertRev_back fun x hx => h x (List.mem_cons_of_mem f hx)
    exact ⟨gs ++ [g], by simp [invertRev, there, theres], invertRev_append_singleton backs back⟩

theorem PathFilter.invertsBack {f : Op} (hf : PathFilter f) : InvertsBack f := by
  induction hf with
  | nop => exact ⟨.nop, rfl, rfl⟩
  | empty => exact ⟨.empty, rfl, rfl⟩
  | subdir path => exact ⟨.prefixDir path, rfl, rfl⟩
  | prefixDir path => exact ⟨.subdir path, rfl, rfl⟩
  | file dest source => exact ⟨.file source dest, rfl, rfl⟩
  | pattern glob => exact ⟨.pattern glob, rfl, rfl⟩
  | objectRef path => exact ⟨.objectDeref path, rfl, rfl⟩
  | objectDeref path => exact ⟨.objectRef path, rfl, rfl⟩
  | chain _ ih =>
    obtain ⟨gs, there, back⟩ := invertRev_back ih
    exact ⟨.chain gs, by simp [invert_chain, there], by simp [invert_chain, back]⟩
  | compose _ ih =>
    obtain ⟨gs, there, back⟩ := invertList_back ih
    exact ⟨.compose gs, by simp [invert_compose, there], by simp [invert_compose, back]⟩
  | exclude _ ih =>
    obtain ⟨g, there, back⟩ := ih
    exact ⟨.exclude g, by simp [invert_exclude, there], by simp [invert_exclude, back]⟩
  | select _ ih =>
    obtain ⟨g, there, back⟩ := ih
    exact ⟨.select g, by simp [invert_select, there], by simp [invert_select, back]⟩
  | «meta» m _ ih =>
    obtain ⟨g, there, back⟩ := ih
    exact ⟨.«meta» m g, by simp [invert_meta, there], by simp [invert_meta, back]⟩

end Josh
