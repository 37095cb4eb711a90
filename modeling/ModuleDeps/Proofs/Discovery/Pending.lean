import ModuleDeps.Proofs.Discovery.Visit

/-!
# Searches as a list of pending paths

`Discovery.add` follows the references of a file before those of its siblings, by recursion. Here
the same search is a run over one list of paths that are still to be looked at: the first one is
visited, and what it refers to is put in front of the rest. `explores_of_add` says that each search
is such a run, so what holds of a search is proved without the recursion: by what one visit preserves
(`Explores.invariant`), or by what is true of one visit and adds up (`Explores.accumulates`). A run
has one end only (`Explores.unique`).
-/

namespace ModuleDeps.Discovery

variable {fs : FileSystem} {cwd : Path}

/-- `Explores fs cwd ps d r d'`: a search that has come to `d`, with the paths `ps` still to be
looked at, ends at `d'` with the result `r`. -/
inductive Explores (fs : FileSystem) (cwd : Path) :
    List Path → Discovery → Except FileError Unit → Discovery → Prop where
  /-- Nothing is left to be looked at. -/
  | done {d : Discovery} : Explores fs cwd [] d (.ok ()) d
  /-- The visit of the next path fails. -/
  | stop {p : Path} {ps : List Path} {d : Discovery} {v : Visit} {e : FileError}
      (hv : visit fs cwd d.visited p = v) (he : v.result = .error e) :
      Explores fs cwd (p :: ps) d (.error e) (d.after v)
  /-- The next path is visited, and its references come first. -/
  | step {p : Path} {ps refs : List Path} {d d' : Discovery} {v : Visit} {r : Except FileError Unit}
      (hv : visit fs cwd d.visited p = v) (hr : v.result = .ok refs)
      (h : Explores fs cwd (refs ++ ps) (d.after v) r d') : Explores fs cwd (p :: ps) d r d'

/-- How a search ends that has come to `d` with the result `r` and goes on with `ps` unless it
failed. -/
def GoesOn (fs : FileSystem) (cwd : Path) (ps : List Path) (r : Except FileError Unit)
    (d : Discovery) (r' : Except FileError Unit) (d' : Discovery) : Prop :=
  match r with
  | .ok _ => Explores fs cwd ps d r' d'
  | .error e => r' = .error e ∧ d' = d

/-! ### Each search is such a run -/

theorem explores_addEach {add : Path → Discovery → Option (Except FileError Unit × Discovery)}
    (hadd : ∀ p ps d r d₁ r' d', add p d = some (r, d₁) → GoesOn fs cwd ps r d₁ r' d' →
      Explores fs cwd (p :: ps) d r' d') {qs ps : List Path} {d d₁ d' : Discovery}
    {r r' : Except FileError Unit} (h : addEach add qs d = some (r, d₁))
    (hgo : GoesOn fs cwd ps r d₁ r' d') :
    Explores fs cwd (qs ++ ps) d r' d' := by
  induction qs generalizing d with
  | nil =>
    obtain ⟨rfl, rfl⟩ : .ok () = r ∧ d = d₁ := by simpa [addEach] using h
    exact hgo
  | cons q qs ih =>
    rw [addEach] at h
    cases hq : add q d with
    | none => simp [hq] at h
    | some out =>
      obtain ⟨s, d₂⟩ := out
      cases s with
      | ok _ =>
        rw [hq] at h
        exact hadd q (qs ++ ps) d (.ok ()) d₂ r' d' hq (ih h)
      | error e =>
        obtain ⟨rfl, rfl⟩ : .error e = r ∧ d₂ = d₁ := by simpa [hq] using h
        exact hadd q (qs ++ ps) d _ d₂ r' d' hq hgo

theorem explores_add {depth : Nat} {p : Path} {ps : List Path} {d d₁ d' : Discovery}
    {r r' : Except FileError Unit} (h : add fs cwd depth p d = some (r, d₁))
    (hgo : GoesOn fs cwd ps r d₁ r' d') : Explores fs cwd (p :: ps) d r' d' := by
  induction depth generalizing p ps d d₁ d' r r' with
  | zero => simp [add] at h
  | succ depth ih =>
    simp only [add] at h
    split at h
    · rename_i e he
      obtain ⟨rfl, rfl⟩ : .error e = r ∧ _ = d₁ := by simpa using h
      obtain ⟨rfl, rfl⟩ := hgo
      exact .stop rfl he
    · rename_i refs hr
      exact .step rfl hr (explores_addEach (fun _ _ _ _ _ _ _ => ih) h hgo)

/-- A search that ends is a run over the path that it starts with. -/
theorem explores_of_add {depth : Nat} {p : Path} {d d' : Discovery} {r : Except FileError Unit}
    (h : add fs cwd depth p d = some (r, d')) : Explores fs cwd [p] d r d' := by
  apply explores_add h
  cases r with
  | ok _ => exact .done
  | error e => exact ⟨rfl, rfl⟩

/-- What is found, or the failure, is that of a run over the path of the module map in question. -/
theorem explores_of_dependencies {depth : Nat} {root : Path}
    {result : Except FileError (List ModuleMapFile)}
    {actions : List Action} (h : dependencies fs cwd depth root = some (result, actions)) :
    ∃ r d, Explores fs cwd [root] {} r d ∧ result = r.map (fun _ => d.collected) ∧
      actions = d.actions := by
  rw [dependencies, Option.map_eq_some_iff] at h
  obtain ⟨⟨r, d⟩, hadd, hr⟩ := h
  rw [Prod.mk.injEq] at hr
  exact ⟨r, d, explores_of_add hadd, hr.1.symm, hr.2.symm⟩

/-! ### What runs preserve -/

/-- A run has one end. -/
theorem Explores.unique {ps : List Path} {d d₁ d₂ : Discovery} {r₁ r₂ : Except FileError Unit}
    (h₁ : Explores fs cwd ps d r₁ d₁) (h₂ : Explores fs cwd ps d r₂ d₂) : r₁ = r₂ ∧ d₁ = d₂ := by
  induction h₁ with
  | done => cases h₂; exact ⟨rfl, rfl⟩
  | stop hv he =>
    subst hv
    cases h₂ with
    | stop hv' he' =>
      subst hv'
      rw [he, Except.error.injEq] at he'
      exact ⟨by rw [he'], rfl⟩
    | step hv' hr' _ =>
      subst hv'
      rw [he] at hr'
      cases hr'
  | step hv hr _ ih =>
    subst hv
    cases h₂ with
    | stop hv' he' =>
      subst hv'
      rw [hr] at he'
      cases he'
    | step hv' hr' h' =>
      subst hv'
      rw [hr, Except.ok.injEq] at hr'
      subst hr'
      exact ih h'

/-- A run that fails ends with a visit that fails. -/
structure Fails (fs : FileSystem) (cwd : Path) (p : Path) (d : Discovery) (e : FileError)
    (d' : Discovery) :
    Prop where
  result_eq : (visit fs cwd d.visited p).result = .error e
  after_eq : d' = d.after (visit fs cwd d.visited p)

/-- What one visit preserves holds at the end of a run, or in front of the visit that fails. -/
theorem Explores.invariant (Inv : List Path → Discovery → Prop)
    (hstep : ∀ p ps d refs, Inv (p :: ps) d → (visit fs cwd d.visited p).result = .ok refs →
      Inv (refs ++ ps) (d.after (visit fs cwd d.visited p)))
    {ps : List Path} {d d' : Discovery} {r : Except FileError Unit} (h : Explores fs cwd ps d r d')
    (h₀ : Inv ps d) :
    (r = .ok () → Inv [] d') ∧
      ∀ e, r = .error e → ∃ p ps d, Inv (p :: ps) d ∧ Fails fs cwd p d e d' := by
  induction h with
  | done => exact ⟨fun _ => h₀, nofun⟩
  | stop hv he =>
    subst hv
    refine ⟨nofun, fun e h => ?_⟩
    cases h
    exact ⟨_, _, _, h₀, he, rfl⟩
  | step hv hr _ ih =>
    subst hv
    exact ih (hstep _ _ _ _ h₀ hr)

/-- A property of what is found and done, from some visited places on, holds of a run if it holds
of a visit that fails, and still holds when a visit that goes on comes in front. -/
theorem Explores.accumulates
    (P : List Path → Except FileError Unit → List ModuleMapFile → List Action → Prop)
    (hdone : ∀ visited, P visited (.ok ()) [] [])
    (hstop : ∀ visited p v e, Visits fs cwd visited p v → v.result = .error e →
      P visited (.error e) v.file?.toList v.actions)
    (hstep : ∀ visited p v refs r files more, Visits fs cwd visited p v → v.result = .ok refs →
      P (visited ++ v.file?.toList.map (·.absPath)) r files more →
      P visited r (v.file?.toList ++ files) (v.actions ++ more))
    {ps : List Path} {d d' : Discovery} {r : Except FileError Unit}
    (h : Explores fs cwd ps d r d') :
    ∃ files more, d'.collected = d.collected ++ files ∧ d'.actions = d.actions ++ more ∧
      P d.visited r files more := by
  induction h with
  | done => exact ⟨[], [], by simp, by simp, hdone _⟩
  | @stop p ps d v e hv he =>
    subst hv
    exact ⟨_, _, rfl, rfl, hstop _ p _ e (visits_visit fs cwd d.visited p) he⟩
  | @step p ps refs d d' v r hv hr _ ih =>
    subst hv
    obtain ⟨files, more, hfiles, hmore, hrest⟩ := ih
    rw [after_visited] at hrest
    refine ⟨_, _, ?_, ?_, hstep _ p _ refs r _ _ (visits_visit fs cwd d.visited p) hr hrest⟩
    · rw [hfiles, after_collected, List.append_assoc]
    · rw [hmore, after_actions, List.append_assoc]

/-- What was visited stays visited. -/
theorem Explores.visited_subset {ps : List Path} {d d' : Discovery} {r : Except FileError Unit}
    (h : Explores fs cwd ps d r d') : d.visited ⊆ d'.visited := by
  induction h with
  | done => exact List.Subset.refl _
  | stop => exact List.subset_append_left _ _
  | step _ _ _ ih => exact List.Subset.trans (List.subset_append_left _ _) ih

/-- A run that does not fail visits all that was pending. -/
theorem Explores.mem_visited {ps : List Path} {d d' : Discovery}
    (h : Explores fs cwd ps d (.ok ()) d') {p : Path} (hp : p ∈ ps) :
    Path.seenFrom cwd p ∈ d'.visited := by
  generalize hr : Except.ok () = r at h
  induction h with
  | done => cases hp
  | stop => cases hr
  | @step q qs refs d d' v r hv hresult hrun ih =>
    rcases List.mem_cons.mp hp with rfl | hp
    · have hq := (visits_visit fs cwd d.visited p).mem_visited (hv ▸ hresult)
      rw [hv] at hq
      exact hrun.visited_subset hq
    · exact ih (List.mem_append_right refs hp) hr

end ModuleDeps.Discovery
