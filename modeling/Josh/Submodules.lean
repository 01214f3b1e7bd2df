import Mathlib.Data.List.Basic

/-! `.gitmodules` handling of `josh-core/src/submodules.rs`. The file is read as gix-config
reads it, a map from submodule names to their sections; writing it out and parsing it again
gives the same map. `update_gitmodules` looks for the section whose path is the entry's, and
without one creates the section named after the path with each `/` as `_`: a section of that
name that holds another submodule is overwritten. -/

namespace Josh

structure ParsedSubmoduleEntry where
  path : String
  url : String
  branch : String
  deriving DecidableEq, Repr

/-- The last value of a key in a section, as git config reads a key set more than once. -/
def sectionValue (kv : List (String × String)) (key : String) : Option String :=
  (kv.reverse.find? (·.1 == key)).map (·.2)

/-- A `.gitmodules` file: its `[submodule "<name>"]` sections in order, one per name. -/
structure Gitmodules where
  sections : List (String × List (String × String))
  nodup : (sections.map (·.1)).Nodup

section Parse

/- `gix_submodule`'s check of a path (it refuses absolute paths and paths out of the worktree),
left open. -/
variable (valid : String → Bool)

/-- The entry of one section: none without a path that passes the check; the url defaults to
the empty string and the branch to `HEAD`. -/
def sectionEntry (kv : List (String × String)) : Option ParsedSubmoduleEntry := do
  let path ← sectionValue kv "path"
  if valid path then
    some ⟨path, (sectionValue kv "url").getD "", (sectionValue kv "branch").getD "HEAD"⟩
  else none

/-- `parse_gitmodules`. -/
def parseGitmodules (m : Gitmodules) : List ParsedSubmoduleEntry :=
  m.sections.filterMap fun s => sectionEntry valid s.2

/-- The name of the first section whose path is `path`. -/
def existingSubmoduleName (m : Gitmodules) (path : String) : Option String :=
  (m.sections.find? fun s => (sectionEntry valid s.2).any (·.path == path)).map (·.1)

end Parse

/-- The name of a new section: the path with each `/` as `_`. -/
def submoduleName (path : String) : String :=
  String.ofList (path.toList.map fun c => if c = '/' then '_' else c)

/-- `section_mut_or_create_new` with the edit applied: the section of that name, or a new empty
one at the end. -/
def setSection (name : String) (f : List (String × String) → List (String × String)) :
    List (String × List (String × String)) → List (String × List (String × String))
  | [] => [(name, f [])]
  | (n, kv) :: rest => if n = name then (n, f kv) :: rest else (n, kv) :: setSection name f rest

theorem map_fst_setSection_of_mem {name : String} (f) {l : List (String × List (String × String))}
    (h : name ∈ l.map (·.1)) : (setSection name f l).map (·.1) = l.map (·.1) := by
  induction l with
  | nil => simp at h
  | cons s rest ih =>
    obtain ⟨n, kv⟩ := s
    by_cases hn : n = name
    · simp [setSection, hn]
    · have h' : name ∈ rest.map (·.1) := by
        simp only [List.map_cons, List.mem_cons] at h
        exact h.resolve_left (Ne.symm hn)
      rw [setSection, if_neg hn, List.map_cons, List.map_cons, ih h']

theorem setSection_of_not_mem {name : String} (f) {l : List (String × List (String × String))}
    (h : name ∉ l.map (·.1)) : setSection name f l = l ++ [(name, f [])] := by
  induction l with
  | nil => rfl
  | cons s rest ih =>
    obtain ⟨n, kv⟩ := s
    have hn : n ≠ name := fun hn => h (by simp [hn])
    rw [setSection, if_neg hn, ih (by simp_all), List.cons_append]

/-- The edited map keeps one section per name. -/
def Gitmodules.set (m : Gitmodules) (name : String)
    (f : List (String × String) → List (String × String)) : Gitmodules where
  sections := setSection name f m.sections
  nodup := by
    by_cases h : name ∈ m.sections.map (·.1)
    · rw [map_fst_setSection_of_mem f h]
      exact m.nodup
    · rw [setSection_of_not_mem f h, List.map_append]
      refine List.nodup_append.mpr ⟨m.nodup, by simp, fun a ha b hb same => h ?_⟩
      simp only [List.map_cons, List.map_nil, List.mem_singleton] at hb
      rwa [same, hb] at ha

/-- The section of `update_gitmodules`: its `path`, `url` and `branch` lines removed, then the
entry's pushed, with no branch line for `HEAD`. -/
def updatedSection (e : ParsedSubmoduleEntry) (kv : List (String × String)) :
    List (String × String) :=
  kv.filter (fun l => l.1 != "path" && l.1 != "url" && l.1 != "branch") ++
    [("path", e.path), ("url", e.url)] ++ (if e.branch ≠ "HEAD" then [("branch", e.branch)] else [])

/-- `update_gitmodules`. -/
def updateGitmodules (valid : String → Bool) (m : Gitmodules) (e : ParsedSubmoduleEntry) :
    Gitmodules :=
  let name := (existingSubmoduleName valid m e.path).getD (submoduleName e.path)
  m.set name (updatedSection e)

theorem sectionValue_append (kv more : List (String × String)) (key : String) :
    sectionValue (kv ++ more) key = (sectionValue more key).or (sectionValue kv key) := by
  simp only [sectionValue, List.reverse_append, List.find?_append]
  cases (more.reverse.find? (·.1 == key)) <;> simp

theorem sectionValue_filter_none {kv : List (String × String)} {key : String}
    (h : key = "path" ∨ key = "url" ∨ key = "branch") :
    sectionValue (kv.filter fun l => l.1 != "path" && l.1 != "url" && l.1 != "branch") key =
      none := by
  simp only [sectionValue, Option.map_eq_none_iff, List.find?_eq_none, List.mem_reverse,
    List.mem_filter]
  rintro ⟨k, v⟩ ⟨-, keep⟩ same
  simp only [beq_iff_eq] at same
  subst same
  rcases h with rfl | rfl | rfl <;> simp at keep

/-- The updated section reads back as the entry, when its path passes the check. -/
theorem sectionEntry_updatedSection (valid : String → Bool) (e : ParsedSubmoduleEntry)
    (kv : List (String × String)) :
    sectionEntry valid (updatedSection e kv) = if valid e.path then some e else none := by
  -- the three keys are read from the pushed lines alone
  have pushed : ∀ key, key = "path" ∨ key = "url" ∨ key = "branch" →
      sectionValue (updatedSection e kv) key =
        sectionValue ([("path", e.path), ("url", e.url)] ++
          if e.branch ≠ "HEAD" then [("branch", e.branch)] else []) key := by
    intro key h
    rw [updatedSection, List.append_assoc, sectionValue_append, sectionValue_filter_none h,
      Option.or_none]
  simp only [sectionEntry, pushed "path" (.inl rfl), pushed "url" (.inr (.inl rfl)),
    pushed "branch" (.inr (.inr rfl))]
  obtain ⟨path, url, branch⟩ := e
  by_cases head : branch = "HEAD" <;> simp [sectionValue, head]

section Update

variable (valid : String → Bool)

/-- A section created at the end adds its entry at the end. -/
theorem parseGitmodules_set_of_not_mem (m : Gitmodules) {name : String} (f)
    (h : name ∉ m.sections.map (·.1)) :
    parseGitmodules valid (m.set name f) =
      parseGitmodules valid m ++ (sectionEntry valid (f [])).toList := by
  simp only [parseGitmodules, Gitmodules.set, setSection_of_not_mem f h, List.filterMap_append]
  cases new : sectionEntry valid (f []) <;> simp [new]

/-- Editing a section that holds an entry adds none. -/
theorem length_parseGitmodules_set_le (m : Gitmodules) {name : String} (f)
    {kv : List (String × String)} (taken : m.sections.lookup name = some kv)
    (held : (sectionEntry valid kv).isSome) :
    (parseGitmodules valid (m.set name f)).length ≤ (parseGitmodules valid m).length := by
  simp only [parseGitmodules, Gitmodules.set, List.length_filterMap_eq_countP]
  generalize m.sections = l at taken
  induction l with
  | nil => simp at taken
  | cons s rest ih =>
    obtain ⟨n, kv'⟩ := s
    by_cases hn : n = name
    · subst hn
      obtain rfl : kv' = kv := by simpa using taken
      simp only [setSection, if_true, List.countP_cons, held, if_true]
      split <;> omega
    · have taken' : rest.lookup name = some kv := by
        rwa [List.lookup_cons, beq_eq_false_iff_ne.mpr (Ne.symm hn)] at taken
      simp only [setSection, if_neg hn, List.countP_cons]
      have := ih taken'
      omega

/-- Without a section of the entry's path, none is found to reuse. -/
theorem existingSubmoduleName_eq_none {m : Gitmodules} {path : String}
    (fresh : ∀ x ∈ parseGitmodules valid m, x.path ≠ path) :
    existingSubmoduleName valid m path = none := by
  simp only [existingSubmoduleName, Option.map_eq_none_iff, List.find?_eq_none]
  intro s hs
  cases hx : sectionEntry valid s.2 with
  | none => simp
  | some x =>
    have : x ∈ parseGitmodules valid m := List.mem_filterMap.mpr ⟨s, hs, hx⟩
    simpa using fresh x this

/-- A new path whose section name is free is appended, the others kept. -/
theorem parseGitmodules_updateGitmodules_fresh (m : Gitmodules) (e : ParsedSubmoduleEntry)
    (fresh : ∀ x ∈ parseGitmodules valid m, x.path ≠ e.path)
    (free : submoduleName e.path ∉ m.sections.map (·.1)) (hv : valid e.path = true) :
    parseGitmodules valid (updateGitmodules valid m e) = parseGitmodules valid m ++ [e] := by
  simp only [updateGitmodules, existingSubmoduleName_eq_none valid fresh, Option.getD_none]
  rw [parseGitmodules_set_of_not_mem valid m _ free, sectionEntry_updatedSection, if_pos hv]
  rfl

/-- A new path whose section name (its `/` as `_`) is taken by a section holding another
submodule overwrites that section: the entry is not appended, and the other submodule is gone. -/
theorem update_gitmodules_overwrites_section (m : Gitmodules) (e : ParsedSubmoduleEntry)
    (fresh : ∀ x ∈ parseGitmodules valid m, x.path ≠ e.path) {kv : List (String × String)}
    (taken : m.sections.lookup (submoduleName e.path) = some kv)
    (held : (sectionEntry valid kv).isSome) :
    parseGitmodules valid (updateGitmodules valid m e) ≠ parseGitmodules valid m ++ [e] := by
  intro same
  have le := length_parseGitmodules_set_le valid m (updatedSection e) taken held
  simp only [updateGitmodules, existingSubmoduleName_eq_none valid fresh, Option.getD_none] at same
  rw [same, List.length_append, List.length_singleton] at le
  omega

end Update

/- The section `a_b` holding the submodule `x`, and a new submodule at `a/b`. -/
theorem update_gitmodules_overwrites_a_b :
    let m : Gitmodules := ⟨[("a_b", [("path", "x"), ("url", "u")])], by decide⟩
    let e : ParsedSubmoduleEntry := ⟨"a/b", "v", "HEAD"⟩
    (∀ x ∈ parseGitmodules (fun _ => true) m, x.path ≠ e.path) ∧
      m.sections.lookup (submoduleName e.path) = some [("path", "x"), ("url", "u")] ∧
      (sectionEntry (fun _ => true) [("path", "x"), ("url", "u")]).isSome ∧
      parseGitmodules (fun _ => true) (updateGitmodules (fun _ => true) m e) ≠
        parseGitmodules (fun _ => true) m ++ [e] := by
  intro m e
  have fresh : ∀ x ∈ parseGitmodules (fun _ => true) m, x.path ≠ e.path := by decide
  have taken : m.sections.lookup (submoduleName e.path) = some [("path", "x"), ("url", "u")] := by
    decide
  have held : (sectionEntry (fun _ => true) [("path", "x"), ("url", "u")]).isSome := by decide
  exact ⟨fresh, taken, held, update_gitmodules_overwrites_section _ m e fresh taken held⟩

end Josh
