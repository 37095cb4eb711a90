import ModuleDeps.Proofs.Discovery.Pending

/-!
# What a search depends on

A search depends on the file system only through the files that it visits: if two file systems agree
on these, the same search in both lists the same files (`Explores.agree`). How the working directory
is spelled does not matter either, as long as each path leads to the same place from it.
-/

namespace ModuleDeps

/-- The same file is at `q` in both file systems, or none that can be read in either. -/
structure AgreeAt (fs₁ fs₂ : FileSystem) (q : Path) : Prop where
  isValid : (fs₁.stat q).isValid = (fs₂.stat q).isValid
  isDirectory : (fs₁.stat q).isDirectory = (fs₂.stat q).isDirectory
  read : fs₁.read q = fs₂.read q

/-- A file without what was known of it when it was found. -/
def ModuleMapFile.names (f : ModuleMapFile) : String × Path := (f.relPath, f.absPath)

/-- Two searches have come equally far. -/
structure Discovery.SameNames (d₁ d₂ : Discovery) : Prop where
  visited : d₁.visited = d₂.visited
  collected : d₁.collected.map (·.names) = d₂.collected.map (·.names)

/-- Two visits come to the same. -/
structure Visit.SameNames (v₁ v₂ : Visit) : Prop where
  result : v₁.result = v₂.result
  file? : v₁.file?.map (·.names) = v₂.file?.map (·.names)

theorem Visit.SameNames.refl (v : Visit) : v.SameNames v := ⟨rfl, rfl⟩

theorem Discovery.SameNames.after {d₁ d₂ : Discovery} {v₁ v₂ : Visit} (hd : d₁.SameNames d₂)
    (hv : v₁.SameNames v₂) : (d₁.after v₁).SameNames (d₂.after v₂) := by
  obtain ⟨-, hf⟩ := hv
  constructor
  · rw [after_visited, after_visited, hd.visited]
    cases h₁ : v₁.file? <;> cases h₂ : v₂.file? <;> simp_all [ModuleMapFile.names]
  · rw [after_collected, after_collected, List.map_append, List.map_append, hd.collected]
    cases h₁ : v₁.file? <;> cases h₂ : v₂.file? <;> simp_all

section

variable {fs₁ fs₂ : FileSystem} {cwd₁ cwd₂ : Path}

/-! ### One visit -/

theorem visit_notText (fs₁ fs₂ : FileSystem) (cwd₁ cwd₂ : Path) (visited : List Path) {p : Path}
    (h : p.text? = none) : visit fs₁ cwd₁ visited p = visit fs₂ cwd₂ visited p := by
  simp only [visit, h]

theorem readModuleMap_agree {q : Path} (h : AgreeAt fs₁ fs₂ q) :
    readModuleMap fs₁ q = readModuleMap fs₂ q := by
  rw [readModuleMap, readModuleMap, h.read]

/-- A visit depends on the place that its path leads to, and on nothing else. -/
theorem visit_agree {visited : List Path} {p : Path}
    (hcwd : Path.seenFrom cwd₁ p = Path.seenFrom cwd₂ p)
    (h : AgreeAt fs₁ fs₂ (Path.seenFrom cwd₁ p)) :
    (visit fs₁ cwd₁ visited p).SameNames (visit fs₂ cwd₂ visited p) := by
  cases hp : p.text? with
  | none => exact visit_notText fs₁ fs₂ cwd₁ cwd₂ _ hp ▸ .refl _
  | some s =>
    simp only [visit, hp, ← hcwd, h.isValid, h.isDirectory, readModuleMap_agree h]
    split_ifs
    · exact .refl _
    · exact .refl _
    · exact .refl _
    · cases readModuleMap fs₂ (Path.seenFrom cwd₁ p) with
      | ok m => exact ⟨rfl, rfl⟩
      | error e => exact ⟨rfl, rfl⟩

/-! ### The search -/

namespace Discovery

/-- The files that a search visited, and the one at which it failed. -/
def Touched (d : Discovery) (r : Except FileError Unit) (q : Path) : Prop :=
  q ∈ d.visited ∨ ∃ e, r = .error e ∧ q = e.path

/-- A visit looks at no file but the one that it finds or fails at. -/
theorem touched_visit {d : Discovery} {p : Path} {s : String} (hp : p.text? = some s) :
    (d.after (visit fs₁ cwd₁ d.visited p)).Touched
      ((visit fs₁ cwd₁ d.visited p).result.map fun _ => ()) (Path.seenFrom cwd₁ p) := by
  have hv := visits_visit fs₁ cwd₁ d.visited p
  generalize visit fs₁ cwd₁ d.visited p = v at hv ⊢
  cases hv with
  | notText h => rw [hp] at h; cases h
  | again _ h => exact .inl (List.mem_append_left _ h)
  | missing => exact .inr ⟨_, rfl, rfl⟩
  | directory => exact .inr ⟨_, rfl, rfl⟩
  | unreadable hf =>
    rw [← hf.absPath_eq]
    exact .inl (List.mem_append_right _ List.mem_cons_self)
  | expanded hf =>
    rw [← hf.absPath_eq]
    exact .inl (List.mem_append_right _ List.mem_cons_self)

/-- A visit comes to the same in file systems that agree on what it touches. -/
theorem SameNames.visit {d₁ d₂ : Discovery} (hd : d₁.SameNames d₂) {p : Path}
    (hcwd : Path.seenFrom cwd₁ p = Path.seenFrom cwd₂ p)
    (h : ∀ q, (d₁.after (visit fs₁ cwd₁ d₁.visited p)).Touched
      ((visit fs₁ cwd₁ d₁.visited p).result.map fun _ => ()) q → AgreeAt fs₁ fs₂ q) :
    (visit fs₁ cwd₁ d₁.visited p).SameNames (visit fs₂ cwd₂ d₂.visited p) := by
  rw [← hd.visited]
  cases hp : p.text? with
  | none => exact visit_notText fs₁ fs₂ cwd₁ cwd₂ _ hp ▸ .refl _
  | some s => exact visit_agree hcwd (h _ (touched_visit hp))

/-- **A search depends on the files that it visits**, and on the one at which it fails: where two
file systems agree on these, the search lists the same files in both, or fails alike. -/
theorem Explores.agree {ps : List Path} {d₁ d₁' d₂ : Discovery} {r : Except FileError Unit}
    (h : Explores fs₁ cwd₁ ps d₁ r d₁') (hcwd : ∀ p, Path.seenFrom cwd₁ p = Path.seenFrom cwd₂ p)
    (hagree : ∀ q, d₁'.Touched r q → AgreeAt fs₁ fs₂ q) (hd : d₁.SameNames d₂) :
    ∃ d₂', Explores fs₂ cwd₂ ps d₂ r d₂' ∧ d₁'.SameNames d₂' := by
  induction h generalizing d₂ with
  | done => exact ⟨d₂, .done, hd⟩
  | stop hv he =>
    subst hv
    have hsame := hd.visit (hcwd _) (by rw [he]; exact hagree)
    exact ⟨_, .stop rfl (hsame.result ▸ he), hd.after hsame⟩
  | @step p ps refs d d' v r hv hr hrest ih =>
    subst hv
    have hsame : (ModuleDeps.visit fs₁ cwd₁ d.visited p).SameNames
        (ModuleDeps.visit fs₂ cwd₂ d₂.visited p) := by
      refine hd.visit (hcwd p) fun q hq => ?_
      rw [hr] at hq
      rcases hq with hq | ⟨e, he, -⟩
      · exact hagree q (.inl (hrest.visited_subset hq))
      · cases he
    obtain ⟨d₂', hrun, hd'⟩ := ih hagree (hd.after hsame)
    exact ⟨d₂', .step rfl (hsame.result ▸ hr) hrun, hd'⟩

end Discovery

end

end ModuleDeps
