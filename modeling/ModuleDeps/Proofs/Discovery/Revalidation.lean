import ModuleDeps.Proofs.Discovery.Agreement
import ModuleDeps.Proofs.Discovery.Closure
import ModuleDeps.Proofs.Discovery.Worklist

/-!
# Looking again at what was found

What a search lists is all that it depends on. In a file system that has the same files at the
listed places, whatever it has elsewhere, a search lists the same files again; and where the first
search failed, one that meets the same files up to the failure fails alike
(`dependencies_revalidated`). So an answer can be checked by looking at its own files.
-/

namespace ModuleDeps

open Discovery

variable {fs fs₁ fs₂ : FileSystem} {cwd cwd₁ cwd₂ root : Path} {depth : Nat}
  {files : List ModuleMapFile} {actions : List Action}

/-! ### Searches as runs -/

/-- A search that succeeds is a run that visits the files that it lists. -/
theorem exists_explores (h : dependencies fs cwd depth root = some (.ok files, actions)) :
    ∃ d, Explores fs cwd [root] {} (.ok ()) d ∧ Progress fs cwd root [] d ∧
      d.collected = files := by
  obtain ⟨r, d, hrun, hr, -⟩ := explores_of_dependencies h
  cases r with
  | error e => cases hr
  | ok _ =>
    cases hr
    have hinv := hrun.invariant (Progress fs cwd root) (fun _ _ _ _ hp => hp.visit)
      (progress_start fs cwd root)
    exact ⟨d, hrun, hinv.1 rfl, rfl⟩

theorem located_of_dependencies
    (h : dependencies fs cwd depth root = some (.ok files, actions)) :
    ∀ f ∈ files, Located fs cwd f := by
  obtain ⟨d, -, hprogress, rfl⟩ := exists_explores h
  exact hprogress.located

/-- A run from the root is a search, if chains of references may be long enough. -/
theorem exists_dependencies_of_explores {r : Except FileError Unit} {d : Discovery}
    (h : Explores fs cwd [root] {} r d) :
    ∃ N, ∀ depth, N ≤ depth →
      dependencies fs cwd depth root = some (r.map fun _ => d.collected, d.actions) := by
  obtain ⟨N, hN⟩ := h.exists_add
  refine ⟨N, fun depth hle => ?_⟩
  rw [dependencies, hN depth hle, Option.map_some]

/-- A run reads the files that it marks as visited. -/
theorem Discovery.Explores.reads_eq {ps : List Path} {d d' : Discovery} {r : Except FileError Unit}
    (h : Explores fs cwd ps d r d') (h₀ : Action.reads d.actions = d.visited) :
    Action.reads d'.actions = d'.visited := by
  have hafter {p : Path} {d : Discovery} (h₀ : Action.reads d.actions = d.visited) :
      Action.reads (d.after (visit fs cwd d.visited p)).actions =
        (d.after (visit fs cwd d.visited p)).visited := by
    rw [after_actions, after_visited, Action.reads_append, h₀,
      (visits_visit fs cwd d.visited p).reads_actions]
  induction h with
  | done => exact h₀
  | stop hv _ => exact hv ▸ hafter h₀
  | step hv _ _ ih => exact ih (hv ▸ hafter h₀)

/-! ### Searches that find the same -/

/-- Where the listed files are the same, a run lists them again. -/
theorem exists_explores_agree (hcwd : ∀ p, Path.seenFrom cwd₁ p = Path.seenFrom cwd₂ p)
    (h : dependencies fs₁ cwd₁ depth root = some (.ok files, actions))
    (hagree : ∀ f ∈ files, AgreeAt fs₁ fs₂ f.absPath) :
    ∃ d, Explores fs₂ cwd₂ [root] {} (.ok ()) d ∧
      d.collected.map (·.names) = files.map (·.names) := by
  obtain ⟨d, hrun, hprogress, rfl⟩ := exists_explores h
  have htouched : ∀ q, d.Touched (.ok ()) q → AgreeAt fs₁ fs₂ q := by
    rintro q (hq | ⟨e, he, -⟩)
    · rw [hprogress.visited_eq] at hq
      obtain ⟨f, hf, rfl⟩ := List.mem_map.mp hq
      exact hagree f hf
    · cases he
  obtain ⟨d', hrun', hnames⟩ := hrun.agree hcwd htouched ⟨rfl, rfl⟩
  exact ⟨d', hrun', hnames.collected.symm⟩

/-- Where the files that were read are the same, and what is at the place of the failure, a run fails
alike. -/
theorem explores_agree_of_error {e : FileError}
    (h : dependencies fs₁ cwd depth root = some (.error e, actions))
    (hagree : ∀ q ∈ Action.reads actions, AgreeAt fs₁ fs₂ q) (he : AgreeAt fs₁ fs₂ e.path) :
    ∃ d, Explores fs₂ cwd [root] {} (.error e) d := by
  obtain ⟨r, d, hrun, hr, rfl⟩ := explores_of_dependencies h
  cases r with
  | ok _ => cases hr
  | error e' =>
    cases hr
    have htouched : ∀ q, d.Touched (.error e) q → AgreeAt fs₁ fs₂ q := by
      rintro q (hq | ⟨e', he', rfl⟩)
      · rw [← hrun.reads_eq rfl] at hq
        exact hagree q hq
      · cases he'
        exact he
    obtain ⟨d', hrun', -⟩ := hrun.agree (fun _ => rfl) htouched ⟨rfl, rfl⟩
    exact ⟨d', hrun'⟩

/-- **It is enough to look again at what was found**: where a file system has the same files at the
places that a search lists, and whatever it has elsewhere, a search in it lists the same files in
the same order. Where the search failed, one in a file system that has the same at the place of the
failure, and the same files at the places that were visited, which are those that were read, fails
with the same error. -/
theorem dependencies_revalidated (fs₁ fs₂ : FileSystem) (cwd root : Path) (depth : Nat) :
    (∀ files actions, dependencies fs₁ cwd depth root = some (.ok files, actions) →
      (∀ f ∈ files, AgreeAt fs₁ fs₂ f.absPath) →
      ∃ N, ∀ depth', N ≤ depth' → ∃ files' actions',
        dependencies fs₂ cwd depth' root = some (.ok files', actions') ∧
          files'.map (·.names) = files.map (·.names)) ∧
    ∀ e actions, dependencies fs₁ cwd depth root = some (.error e, actions) →
      (∀ q ∈ Action.reads actions, AgreeAt fs₁ fs₂ q) → AgreeAt fs₁ fs₂ e.path →
      ∃ N, ∀ depth', N ≤ depth' → ∃ actions',
        dependencies fs₂ cwd depth' root = some (.error e, actions') := by
  constructor
  · intro files actions h hagree
    obtain ⟨d, hrun, hnames⟩ := exists_explores_agree (fun _ => rfl) h hagree
    obtain ⟨N, hN⟩ := exists_dependencies_of_explores hrun
    exact ⟨N, fun depth' hle => ⟨d.collected, d.actions, hN depth' hle, hnames⟩⟩
  · intro e actions h hagree he
    obtain ⟨d, hrun⟩ := explores_agree_of_error h hagree he
    obtain ⟨N, hN⟩ := exists_dependencies_of_explores hrun
    exact ⟨N, fun depth' hle => ⟨d.actions, hN depth' hle⟩⟩

/-- Later, with a further file that holds no module map, two files are listed as before, and a name
that was not there is still missing. -/
theorem dependencies_revalidated_later :
    let listed : List (Path × String) :=
      [(.ofString "/w/a", "extern module b \"b\""), (.ofString "/w/b", "module b \x7b \x7d")]
    let dangling : Path × String := (.ofString "/w/m", "extern module n \"n\"")
    let fs₁ := FileSystem.holding ⟨0, 0, by decide⟩ ⟨9, 0, by decide⟩ (dangling :: listed)
    let fs₂ := FileSystem.holding ⟨5, 0, by decide⟩ ⟨7, 0, by decide⟩
      ((.ofString "/w/c", "module") :: listed ++ [dangling])
    let files : List ModuleMapFile :=
      [⟨"a", .ofString "/w/a", fs₁.stat (.ofString "/w/a")⟩,
        ⟨"b", .ofString "/w/b", fs₁.stat (.ofString "/w/b")⟩]
    (dependencies fs₁ (.ofString "/w") 2 (.ofString "a") =
        some (.ok files, files.flatMap readActions) ∧
      ∃ N, ∀ depth', N ≤ depth' → ∃ files' actions',
        dependencies fs₂ (.ofString "/w") depth' (.ofString "a") = some (.ok files', actions') ∧
          files'.map (·.names) = [("a", .ofString "/w/a"), ("b", .ofString "/w/b")]) ∧
    ∃ N, ∀ depth', N ≤ depth' → ∃ actions',
      dependencies fs₂ (.ofString "/w") depth' (.ofString "m") =
        some (.error (.missing (.ofString "/w/n")), actions') := by
  intro listed dangling fs₁ fs₂ files
  have hfound : dependencies fs₁ (.ofString "/w") 2 (.ofString "a") =
      some (.ok files, files.flatMap readActions) := by decide +kernel
  obtain ⟨⟨result, actions⟩, hfailed, hout⟩ := Option.map_eq_some_iff.mp
    (show (dependencies fs₁ (.ofString "/w") 2 (.ofString "m")).map
      (fun out => (out.1, Action.reads out.2)) =
        some (.error (.missing (.ofString "/w/n")), [.ofString "/w/m"]) by decide +kernel)
  obtain ⟨rfl, hreads⟩ := Prod.mk.inj hout
  have hagree : ∀ q ∈ [Path.ofString "/w/a", .ofString "/w/b", .ofString "/w/m", .ofString "/w/n"],
      AgreeAt fs₁ fs₂ q := by
    intro q hq
    simp only [List.mem_cons, List.not_mem_nil, or_false] at hq
    rcases hq with rfl | rfl | rfl | rfl <;> exact ⟨by decide, by decide, by decide⟩
  refine ⟨⟨hfound, ?_⟩, ?_⟩
  · refine (dependencies_revalidated fs₁ fs₂ (.ofString "/w") (.ofString "a") 2).1 _ _ hfound ?_
    intro f hf
    simp only [files, List.mem_cons, List.not_mem_nil, or_false] at hf
    rcases hf with rfl | rfl
    · exact hagree _ (by simp)
    · exact hagree _ (by simp)
  · refine (dependencies_revalidated fs₁ fs₂ (.ofString "/w") (.ofString "m") 2).2 _ _ hfailed ?_
      (hagree _ (by simp [FileError.path]))
    intro q hq
    rw [hreads, List.mem_singleton] at hq
    exact hagree q (by simp [hq])

end ModuleDeps
