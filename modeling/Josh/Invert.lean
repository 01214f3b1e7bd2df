import Josh.Op
import Josh.Lib.Except

/-! `invert` of `josh-filter/src/opt/invert.rs`: the filter that maps a filtered tree back to
where its content came from, for the ops that have one. The `INVERTED` memo only replays
results of this function. -/

namespace Josh

mutual
/-- `invert`. -/
def invert : Op → Except String Op
  | .nop => .ok .nop
  | .message .. => .ok .nop
  | .squash none => .ok .nop
  | .prune => .ok .prune
  | .«export» => .ok .«export»
  | .empty => .ok .empty
  | .link _ => .ok .unlink
  | .subdir path => .ok (.prefixDir path)
  | .file dest src => .ok (.file src dest)
  | .prefixDir path => .ok (.subdir path)
  | .pattern glob => .ok (.pattern glob)
  | .regexReplace _ => .ok .nop
  | .pin _ => .ok .nop
  -- generative ops consume no input: their inverse is empty
  | .insert .. => .ok .empty
  | .treeId .. => .ok .empty
  | .objectDeref path => .ok (.objectRef path)
  | .objectRef path => .ok (.objectDeref path)
  | .«meta» m f => do .ok (.«meta» m (← invert f))
  | .chain filters => do .ok (.chain (← invertRev filters))
  | .compose filters => do .ok (.compose (← invertList filters))
  | .exclude f => do .ok (.exclude (← invert f))
  | .select f => do .ok (.select (← invert f))
  | _ => .error "no invert"
/-- The inverses of a list of filters, in order; the first failure is the result. -/
def invertList : List Op → Except String (List Op)
  | [] => .ok []
  | f :: fs => do
    let g ← invert f
    let gs ← invertList fs
    .ok (g :: gs)
/-- The inverses of a chain, last filter first: `filters.iter().rev()` stops at the first
failure from the end. -/
def invertRev : List Op → Except String (List Op)
  | [] => .ok []
  | f :: fs => do
    let rest ← invertRev fs
    let g ← invert f
    .ok (rest ++ [g])
end

/-! The arms of `invert` that recurse or fail, as equations: proofs about `invert` cite these and
leave its many-armed match folded. -/

theorem invert_chain (fs : List Op) :
    invert (.chain fs) = invertRev fs >>= fun gs => .ok (.chain gs) := rfl

theorem invert_compose (fs : List Op) :
    invert (.compose fs) = invertList fs >>= fun gs => .ok (.compose gs) := rfl

theorem invert_exclude (f : Op) : invert (.exclude f) = invert f >>= fun g => .ok (.exclude g) :=
  rfl

theorem invert_select (f : Op) : invert (.select f) = invert f >>= fun g => .ok (.select g) :=
  rfl

theorem invert_meta (m : List (String × String)) (f : Op) :
    invert (.«meta» m f) = invert f >>= fun g => .ok (.«meta» m g) := rfl

theorem invert_subtract (a b : Op) : invert (.subtract a b) = .error "no invert" := rfl

theorem invert_rev (arms : List (RevMatch × LazyRef × Op)) :
    invert (.rev arms) = .error "no invert" := rfl

theorem invert_starlark (p : Path) (f : Op) : invert (.starlark p f) = .error "no invert" := rfl

/-- Inverting a chain with one more filter at its end puts that filter's inverse first. -/
theorem invertRev_append_singleton {l r : List Op} {g g' : Op} (hl : invertRev l = .ok r)
    (hg : invert g = .ok g') : invertRev (l ++ [g]) = .ok (g' :: r) := by
  induction l generalizing r with
  | nil =>
    cases hl
    simp [invertRev, hg]
  | cons a l ih =>
    simp only [invertRev, Except.bind_eq_ok] at hl
    obtain ⟨rest, hrest, ga, hga, hr⟩ := hl
    cases hr
    simp [invertRev, ih hrest, hga]

end Josh
