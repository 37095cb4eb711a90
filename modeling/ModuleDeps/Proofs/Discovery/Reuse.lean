import ModuleDeps.Proofs.Discovery.Closure

/-!
# Going on after a failure

A search that failed keeps what it found so far, and more paths may be added to it. Files that were
found are not looked at again, those included whose references were not all followed when the search
failed. So a path that is added with success may still lead to files that are not listed.
`add_ok_complete_iff` says when that does not happen: all that the path leads to is listed, each
file holding a module map, if and only if no earlier call failed at a file that it leads to.

The invariant, `Resumed`, keeps two sorts of files apart. A file is expanded if what its module map
names was visited or is among the first of the pending paths, all of which the file leads to. If the
next visit fails, the file waits for nothing, or it leads to the place of the failure. In the latter
case it is of the other sort from then on: the files that lead to a place where a call failed.
-/

namespace ModuleDeps

open Discovery

variable {fs : FileSystem} {cwd : Path}

/-- Paths were added one after the other to a new search, with the results `rs`, and brought it to
`d`. -/
inductive Attempts (fs : FileSystem) (cwd : Path) :
    List (Except FileError Unit) → Discovery → Prop where
  /-- No path was added yet. -/
  | start : Attempts fs cwd [] {}
  /-- One more path is added, whatever came of those in front of it. -/
  | add {rs : List (Except FileError Unit)} {d d' : Discovery} {depth : Nat} {p : Path}
      {r : Except FileError Unit} (h : Attempts fs cwd rs d)
      (hadd : Discovery.add fs cwd depth p d = some (r, d')) : Attempts fs cwd (rs ++ [r]) d'

/-! ### Where files lead -/

/-- From the place `start`, the module maps in `files` lead to a place. -/
inductive Reaches (fs : FileSystem) (cwd : Path) (files : List ModuleMapFile) (start : Path) :
    Path → Prop where
  /-- The place itself. -/
  | refl : Reaches fs cwd files start start
  /-- A place that a file refers to. -/
  | refers {f : ModuleMapFile} {p : Path} (h : Reaches fs cwd files start f.absPath)
      (hf : f ∈ files) (hp : Refers fs f p) : Reaches fs cwd files start (Path.seenFrom cwd p)

theorem Reaches.mono {files files' : List ModuleMapFile} {start q : Path}
    (h : Reaches fs cwd files start q) (hsub : files ⊆ files') :
    Reaches fs cwd files' start q := by
  induction h with
  | refl => exact .refl
  | refers _ hf hp ih => exact .refers ih (hsub hf) hp

theorem Reaches.trans {files : List ModuleMapFile} {start q r : Path}
    (h : Reaches fs cwd files start q) (h' : Reaches fs cwd files q r) :
    Reaches fs cwd files start r := by
  induction h' with
  | refl => exact h
  | refers _ hf hp ih => exact .refers ih hf hp

/-- A file that is there and holds a module map is not unusable. -/
theorem Located.not_unusable {f : ModuleMapFile} {m : ModuleMap} {e : FileError}
    (hf : Located fs cwd f) (hm : fs.Holds f.absPath m) : ¬ Unusable fs f.absPath e := by
  obtain ⟨content, hr, hm⟩ := hm
  have hvalid := hf.isValid
  have hfile := hf.isFile
  rw [hf.stat_eq] at hvalid hfile
  intro hu
  cases hu with
  | missing h => rw [hvalid] at h; cases h
  | directory h => rw [hfile] at h; cases h
  | unreadable h => rw [hr] at h; cases h
  | malformed hr' h =>
    obtain rfl := Except.ok.inj (hr.symm.trans hr')
    rw [hm] at h
    cases h

/-! ### Spoilt and expanded files -/

/-- One of the calls that came to `rs` failed at a place that the file leads to. -/
def Spoilt (fs : FileSystem) (cwd : Path) (rs : List (Except FileError Unit))
    (files : List ModuleMapFile) (f : ModuleMapFile) : Prop :=
  ∃ q e, Reaches fs cwd files f.absPath q ∧ .error e ∈ rs ∧ Unusable fs q e

/-- What the module map in the file names was visited or is among the first of the pending paths
`ps`, to all of which the file leads. -/
def Expanded (fs : FileSystem) (cwd : Path) (ps : List Path) (d : Discovery) (f : ModuleMapFile) :
    Prop :=
  ∃ m front, fs.Holds f.absPath m ∧ front <+: ps ∧
    (∀ p ∈ front, Reaches fs cwd d.collected f.absPath (Path.seenFrom cwd p)) ∧
    ∀ name ∈ m.externFilenames, f.path.reference name ∈ front ∨
      Path.seenFrom cwd (f.path.reference name) ∈ d.visited

theorem Spoilt.mono {rs rs' : List (Except FileError Unit)} {files files' : List ModuleMapFile}
    {f : ModuleMapFile} (h : Spoilt fs cwd rs files f) (hrs : rs ⊆ rs') (hfiles : files ⊆ files') :
    Spoilt fs cwd rs' files' f := by
  obtain ⟨q, e, hq, he, hu⟩ := h
  exact ⟨q, e, hq.mono hfiles, hrs he, hu⟩

theorem Expanded.mono {ps : List Path} {d d' : Discovery} {f : ModuleMapFile}
    (h : Expanded fs cwd ps d f) (hcollected : d.collected ⊆ d'.collected)
    (hvisited : d.visited ⊆ d'.visited) : Expanded fs cwd ps d' f := by
  obtain ⟨m, front, hm, hfront, hreach, hnames⟩ := h
  exact ⟨m, front, hm, hfront, fun p hp => (hreach p hp).mono hcollected,
    fun name hname => (hnames name hname).imp_right fun hv => hvisited hv⟩

/-- A file that waits for nothing goes on to do so. -/
theorem Expanded.of_nil {d : Discovery} {f : ModuleMapFile} (h : Expanded fs cwd [] d f)
    (ps : List Path) : Expanded fs cwd ps d f := by
  obtain ⟨m, front, hm, hfront, hreach, hnames⟩ := h
  obtain rfl := List.prefix_nil.mp hfront
  exact ⟨m, [], hm, List.nil_prefix, hreach, hnames⟩

/-- A file waits for nothing, or it leads to the first of the pending paths. -/
theorem Expanded.head {p : Path} {ps : List Path} {d : Discovery} {f : ModuleMapFile}
    (h : Expanded fs cwd (p :: ps) d f) :
    Expanded fs cwd [] d f ∨ Reaches fs cwd d.collected f.absPath (Path.seenFrom cwd p) := by
  obtain ⟨m, front, hm, hfront, hreach, hnames⟩ := h
  cases front with
  | nil => exact .inl ⟨m, [], hm, List.nil_prefix, hreach, hnames⟩
  | cons q front =>
    obtain ⟨rfl, -⟩ := List.cons_prefix_cons.mp hfront
    exact .inr (hreach q List.mem_cons_self)

/-- With the first pending path visited, a file waits for what is behind that path instead. -/
theorem Expanded.next {p : Path} {ps refs : List Path} {d : Discovery} {f : ModuleMapFile}
    (h : Expanded fs cwd (p :: ps) d f) (hp : Path.seenFrom cwd p ∈ d.visited)
    (hrefs : Reaches fs cwd d.collected f.absPath (Path.seenFrom cwd p) →
      ∀ r ∈ refs, Reaches fs cwd d.collected f.absPath (Path.seenFrom cwd r)) :
    Expanded fs cwd (refs ++ ps) d f := by
  obtain ⟨m, front, hm, hfront, hreach, hnames⟩ := h
  cases front with
  | nil => exact ⟨m, [], hm, List.nil_prefix, hreach, hnames⟩
  | cons q front =>
    obtain ⟨rfl, hrest⟩ := List.cons_prefix_cons.mp hfront
    refine ⟨m, refs ++ front, hm, (List.prefix_append_right_inj refs).mpr hrest, ?_, ?_⟩
    · intro r hr
      rcases List.mem_append.mp hr with hr | hr
      · exact hrefs (hreach q List.mem_cons_self) r hr
      · exact hreach r (List.mem_cons_of_mem q hr)
    · intro name hname
      rcases hnames name hname with hn | hn
      · rcases List.mem_cons.mp hn with heq | hn
        · exact .inr (heq ▸ hp)
        · exact .inl (List.mem_append_right refs hn)
      · exact .inr hn

/-! ### What calls keep, whatever comes of them -/

/-- A search at `d` with the paths `ps` pending, after calls that came to `rs`. -/
structure Resumed (fs : FileSystem) (cwd : Path) (rs : List (Except FileError Unit))
    (ps : List Path) (d : Discovery) : Prop where
  visited_eq : d.visited = d.collected.map (·.absPath)
  located : ∀ f ∈ d.collected, Located fs cwd f
  isText : ∀ p ∈ ps, p.IsText
  expanded : ∀ f ∈ d.collected, Spoilt fs cwd rs d.collected f ∨ Expanded fs cwd ps d f

theorem resumed_start (fs : FileSystem) (cwd : Path) : Resumed fs cwd [] [] {} where
  visited_eq := rfl
  located := nofun
  isText := nofun
  expanded := nofun

section

variable {rs : List (Except FileError Unit)} {p : Path} {ps : List Path} {d d' : Discovery}

theorem Resumed.result (h : Resumed fs cwd rs ps d) (r : Except FileError Unit) :
    Resumed fs cwd (rs ++ [r]) ps d where
  visited_eq := h.visited_eq
  located := h.located
  isText := h.isText
  expanded f hf := (h.expanded f hf).imp_left fun hs =>
    hs.mono (List.subset_append_left _ _) (List.Subset.refl _)

theorem Resumed.congr (h : Resumed fs cwd rs ps d) (hvisited : d'.visited = d.visited)
    (hcollected : d'.collected = d.collected) : Resumed fs cwd rs ps d' := by
  obtain ⟨visited, collected, actions⟩ := d'
  obtain rfl : visited = d.visited := hvisited
  obtain rfl : collected = d.collected := hcollected
  exact ⟨h.visited_eq, h.located, h.isText, h.expanded⟩

/-- A call starts with nothing but its own path pending. -/
theorem Resumed.call (h : Resumed fs cwd rs [] d) (hp : p.IsText) : Resumed fs cwd rs [p] d where
  visited_eq := h.visited_eq
  located := h.located
  isText _ hq := List.mem_singleton.mp hq ▸ hp
  expanded f hf := (h.expanded f hf).imp_right fun he => he.of_nil [p]

/-- A file that was visited before is passed over. -/
theorem Resumed.again (h : Resumed fs cwd rs (p :: ps) d) (hp : Path.seenFrom cwd p ∈ d.visited)
    (actions : List Action) : Resumed fs cwd rs ps (d.after ⟨.ok [], none, actions⟩) where
  visited_eq := by simpa using h.visited_eq
  located := by simpa using h.located
  isText q hq := h.isText q (List.mem_cons_of_mem p hq)
  expanded f hf := by
    rw [after_collected, Option.toList_none, List.append_nil] at hf ⊢
    refine (h.expanded f hf).imp_right fun he => ?_
    have hnext : Expanded fs cwd ([] ++ ps) d f := he.next hp nofun
    exact hnext.mono (by simp) (by simp)

/-- A file that is found is listed, and what it names becomes pending. -/
theorem Resumed.found (h : Resumed fs cwd rs (p :: ps) d) {g : ModuleMapFile} {m : ModuleMap}
    (hg : Finds fs cwd d.visited p g) (hm : fs.Holds g.absPath m) :
    Resumed fs cwd rs (m.externFilenames.map p.reference ++ ps)
      (d.after ⟨.ok (m.externFilenames.map p.reference), some g, readActions g⟩) := by
  have hpath : g.path = p := hg.relPath_eq
  have hcollected := List.subset_append_left d.collected [g]
  have hvisited := List.subset_append_left d.visited [g.absPath]
  -- whatever leads to the file leads to what it names
  have hrefs (start : Path) (hstart : Reaches fs cwd (d.collected ++ [g]) start g.absPath) :
      ∀ r ∈ m.externFilenames.map p.reference,
        Reaches fs cwd (d.collected ++ [g]) start (Path.seenFrom cwd r) := by
    intro r hr
    obtain ⟨name, hname, rfl⟩ := List.mem_map.mp hr
    exact .refers hstart (by simp) ⟨m, hm, name, hname, by rw [hpath]⟩
  refine ⟨by simp [h.visited_eq], fun f hf => ?_, fun q hq => ?_, fun f hf => ?_⟩
  · rcases List.mem_append.mp hf with hf | hf
    · exact h.located f hf
    · obtain rfl : f = g := by simpa using hf
      exact hg.located
  · rcases List.mem_append.mp hq with hq | hq
    · obtain ⟨name, -, rfl⟩ := List.mem_map.mp hq
      exact Path.isText_reference (h.isText p List.mem_cons_self) name
    · exact h.isText q (List.mem_cons_of_mem p hq)
  · rcases List.mem_append.mp hf with hf | hf
    · refine (h.expanded f hf).imp (fun hs => hs.mono (List.Subset.refl _) hcollected) fun he => ?_
      refine (he.mono hcollected hvisited).next ?_ ?_
      · simp [hg.absPath_eq]
      · rw [← hg.absPath_eq]
        exact hrefs f.absPath
    · obtain rfl : f = g := by simpa using hf
      refine .inr ⟨m, m.externFilenames.map p.reference, hm, List.prefix_append _ _, ?_, ?_⟩
      · exact hrefs f.absPath .refl
      · intro name hname
        rw [hpath]
        exact .inl (List.mem_map_of_mem hname)

/-- A visit that goes on keeps the invariant. -/
theorem Resumed.visit {refs : List Path} (h : Resumed fs cwd rs (p :: ps) d)
    (hr : (visit fs cwd d.visited p).result = .ok refs) :
    Resumed fs cwd rs (refs ++ ps) (d.after (visit fs cwd d.visited p)) := by
  have hv := visits_visit fs cwd d.visited p
  generalize ModuleDeps.visit fs cwd d.visited p = v at hv hr
  cases hv with
  | notText | missing | directory | unreadable => cases hr
  | again _ hp =>
    cases hr
    exact h.again hp _
  | expanded hg hm =>
    cases hr
    exact h.found hg (readModuleMap_eq_ok_iff.mp hm)

/-- A file that is not done with when a visit fails leads to the place of the failure. -/
theorem Resumed.stuck (h : Resumed fs cwd rs (p :: ps) d) {e : FileError}
    (hu : Unusable fs (Path.seenFrom cwd p) e) (hcollected : d.collected ⊆ d'.collected)
    (hvisited : d.visited ⊆ d'.visited) {f : ModuleMapFile} (hf : f ∈ d.collected) :
    Spoilt fs cwd (rs ++ [.error e]) d'.collected f ∨ Expanded fs cwd [] d' f := by
  rcases h.expanded f hf with hs | he
  · exact .inl (hs.mono (List.subset_append_left _ _) hcollected)
  · rcases he.head with he | hreach
    · exact .inr (he.mono hcollected hvisited)
    · exact .inl ⟨_, e, hreach.mono hcollected, by simp, hu⟩

/-- A visit that finds no file spoils the files that lead to it. -/
theorem Resumed.missed (h : Resumed fs cwd rs (p :: ps) d) {e : FileError}
    (hu : Unusable fs (Path.seenFrom cwd p) e) (actions : List Action) :
    Resumed fs cwd (rs ++ [.error e]) [] (d.after (.failure e none actions)) where
  visited_eq := by simpa [Visit.failure] using h.visited_eq
  located := by simpa [Visit.failure] using h.located
  isText := nofun
  expanded f hf := by
    obtain hf : f ∈ d.collected := by simpa [Visit.failure] using hf
    exact h.stuck hu (List.subset_append_left _ _) (List.subset_append_left _ _) hf

/-- A file that no module map can be had from is listed all the same, and spoils itself. -/
theorem Resumed.spoilt (h : Resumed fs cwd rs (p :: ps) d) {g : ModuleMapFile} {e : FileError}
    (hg : Finds fs cwd d.visited p g) (hu : Unusable fs g.absPath e) :
    Resumed fs cwd (rs ++ [.error e]) [] (d.after (.failure e (some g) (readActions g))) where
  visited_eq := by simp [Visit.failure, h.visited_eq]
  located f hf := by
    rcases List.mem_append.mp hf with hf | hf
    · exact h.located f hf
    · obtain rfl : f = g := by simpa [Visit.failure] using hf
      exact hg.located
  isText := nofun
  expanded f hf := by
    rcases List.mem_append.mp hf with hf | hf
    · rw [hg.absPath_eq] at hu
      exact h.stuck hu (List.subset_append_left _ _) (List.subset_append_left _ _) hf
    · obtain rfl : f = g := by simpa [Visit.failure] using hf
      exact .inl ⟨f.absPath, e, .refl, by simp, hu⟩

/-- A visit that fails keeps the invariant, with nothing pending any more. -/
theorem Resumed.fails {e : FileError} (h : Resumed fs cwd rs (p :: ps) d)
    (hf : Fails fs cwd p d e d') : Resumed fs cwd (rs ++ [.error e]) [] d' := by
  obtain ⟨he, rfl⟩ := hf
  have hv := visits_visit fs cwd d.visited p
  generalize ModuleDeps.visit fs cwd d.visited p = v at hv he
  cases hv with
  | again | expanded => cases he
  | notText hp =>
    obtain ⟨s, hs⟩ := Path.isText_iff_exists.mp (h.isText p List.mem_cons_self)
    rw [hs] at hp
    cases hp
  | missing _ _ hs => cases he; exact h.missed (.missing hs) _
  | directory _ _ _ hd => cases he; exact h.missed (.directory hd) _
  | unreadable hg hm => cases he; exact h.spoilt hg (unusable_of_readModuleMap hm)

/-- A path that is not text leaves the search as it is. -/
theorem Resumed.notText (h : Resumed fs cwd rs [] d) (hp : p.text? = none)
    {r : Except FileError Unit} (hrun : Explores fs cwd [p] d r d') :
    Resumed fs cwd (rs ++ [r]) [] d' := by
  have hvisit : ModuleDeps.visit fs cwd d.visited p = .failure (.notUtf8 p) none [] := by
    simp only [ModuleDeps.visit, hp]
  cases hrun with
  | stop hv he =>
    subst hv
    rw [hvisit] at he ⊢
    cases he
    exact (h.result _).congr (by simp [Visit.failure]) (by simp [Visit.failure])
  | step hv hr =>
    rw [← hv, hvisit] at hr
    cases hr

/-- A call keeps the invariant, whether it fails or not. -/
theorem Resumed.add {depth : Nat} {r : Except FileError Unit} (h : Resumed fs cwd rs [] d)
    (hadd : Discovery.add fs cwd depth p d = some (r, d')) :
    Resumed fs cwd (rs ++ [r]) [] d' := by
  have hrun := explores_of_add hadd
  cases hp : p.text? with
  | none => exact h.notText hp hrun
  | some s =>
    obtain ⟨hok, herror⟩ := hrun.invariant (Resumed fs cwd rs) (fun _ _ _ _ h => h.visit)
      (h.call (Path.isText_iff_exists.mpr ⟨s, hp⟩))
    cases r with
    | ok _ => exact (hok rfl).result (.ok ())
    | error e =>
      obtain ⟨p, ps, d₀, h₀, hf⟩ := herror e rfl
      exact h₀.fails hf

theorem Attempts.resumed (h : Attempts fs cwd rs d) : Resumed fs cwd rs [] d := by
  induction h with
  | start => exact resumed_start fs cwd
  | add _ hadd ih => exact ih.add hadd

/-! ### What a call that succeeds lists -/

/-- A file that does not lead to a failure holds a module map, and what this names is listed. -/
theorem Resumed.closed (h : Resumed fs cwd rs [] d) {f : ModuleMapFile} (hf : f ∈ d.collected)
    (hgood : ∀ q, Reaches fs cwd d.collected f.absPath q → ∀ e, .error e ∈ rs →
      ¬ Unusable fs q e) :
    ∃ m, fs.Holds f.absPath m ∧ ∀ name ∈ m.externFilenames,
      ∃ g ∈ d.collected, g.absPath = Path.seenFrom cwd (f.path.reference name) := by
  rcases h.expanded f hf with ⟨q, e, hq, he, hu⟩ | ⟨m, front, hm, hfront, -, hnames⟩
  · exact absurd hu (hgood q hq e he)
  · obtain rfl := List.prefix_nil.mp hfront
    refine ⟨m, hm, fun name hname => ?_⟩
    have hv := (hnames name hname).resolve_left (by simp)
    rw [h.visited_eq] at hv
    exact List.mem_map.mp hv

/-- From a listed place that does not lead to a failure, only listed places are reached. -/
theorem Resumed.reaches (h : Resumed fs cwd rs [] d) {start : Path}
    (hstart : ∃ f ∈ d.collected, f.absPath = start)
    (hgood : ∀ q, Reaches fs cwd d.collected start q → ∀ e, .error e ∈ rs → ¬ Unusable fs q e)
    {q : Path} (hq : Reaches fs cwd d.collected start q) :
    ∃ f ∈ d.collected, f.absPath = q := by
  cases hq with
  | refl => exact hstart
  | @refers f p hreach hf hp =>
    obtain ⟨m, hm, name, hname, rfl⟩ := hp
    obtain ⟨m', hm', hclosed⟩ := h.closed hf fun q hq => hgood q (hreach.trans hq)
    obtain rfl := hm.unique hm'
    exact hclosed name hname

/-- **A path that is added with success is listed, and with it all that it leads to, each file
holding a module map, if and only if no earlier call failed at a file that it leads to.** -/
theorem add_ok_complete_iff {depth : Nat} (h : Attempts fs cwd rs d)
    (hadd : Discovery.add fs cwd depth p d = some (.ok (), d')) :
    (∃ f ∈ d'.collected, f.absPath = Path.seenFrom cwd p) ∧
    ((∀ q, Reaches fs cwd d'.collected (Path.seenFrom cwd p) q →
        (∃ f ∈ d'.collected, f.absPath = q) ∧ ∃ m, fs.Holds q m) ↔
      ∀ q, Reaches fs cwd d'.collected (Path.seenFrom cwd p) q →
        ∀ e, .error e ∈ rs → ¬ Unusable fs q e) := by
  have hres := (h.add hadd).resumed
  have hstart : ∃ f ∈ d'.collected, f.absPath = Path.seenFrom cwd p := by
    have hv := (explores_of_add hadd).mem_visited (List.mem_singleton.mpr rfl)
    rw [hres.visited_eq] at hv
    exact List.mem_map.mp hv
  refine ⟨hstart, fun hall q hq e _ => ?_, fun hgood q hq => ?_⟩
  · obtain ⟨⟨f, hf, rfl⟩, m, hm⟩ := hall q hq
    exact (hres.located f hf).not_unusable hm
  · have hgood' (q : Path) (hq : Reaches fs cwd d'.collected (Path.seenFrom cwd p) q)
        (e : FileError) (he : .error e ∈ rs ++ [.ok ()]) : ¬ Unusable fs q e :=
      hgood q hq e (by simpa using he)
    obtain ⟨f, hf, rfl⟩ := hres.reaches hstart hgood' hq
    obtain ⟨m, hm, -⟩ := hres.closed hf fun r hr => hgood' r (hq.trans hr)
    exact ⟨⟨f, hf, rfl⟩, m, hm⟩

end

/-- A call that failed elsewhere does no harm. -/
theorem add_ok_complete_iff_elsewhere :
    let fs := FileSystem.holding ⟨0, 0, by decide⟩ ⟨9, 0, by decide⟩
      [(.ofString "/w/a", "extern module b \"b\""), (.ofString "/w/b", "")]
    let place : Path := .ofString "/w/a"
    let files : List ModuleMapFile :=
      [⟨"a", place, fs.stat place⟩, ⟨"b", .ofString "/w/b", fs.stat (.ofString "/w/b")⟩]
    let rs : List (Except FileError Unit) := [.error (.missing (.ofString "/w/c"))]
    ∃ d d', Attempts fs (.ofString "/w") rs d ∧
      Discovery.add fs (.ofString "/w") 3 (.ofString "a") d = some (.ok (), d') ∧
      d'.collected = files ∧
      ((∀ q, Reaches fs (.ofString "/w") files place q →
          (∃ f ∈ files, f.absPath = q) ∧ ∃ m, fs.Holds q m) ↔
        ∀ q, Reaches fs (.ofString "/w") files place q →
          ∀ e, .error e ∈ rs → ¬ Unusable fs q e) := by
  intro fs place files rs
  let d : Discovery := ⟨[], [], [.stat (.ofString "/w/c"),
    .log (.failed (.missing (.ofString "/w/c")))]⟩
  let d' : Discovery := ⟨[place, .ofString "/w/b"], files, d.actions ++ files.flatMap readActions⟩
  have hfirst : Discovery.add fs (.ofString "/w") 3 (.ofString "c") {} =
      some (.error (.missing (.ofString "/w/c")), d) := by
    decide +kernel
  have hadd : Discovery.add fs (.ofString "/w") 3 (.ofString "a") d = some (.ok (), d') := by
    decide +kernel
  have hattempts : Attempts fs (.ofString "/w") rs d := .add .start hfirst
  exact ⟨d, d', hattempts, hadd, rfl, (add_ok_complete_iff hattempts hadd).2⟩

/-- A path whose reference is missing is added with success if it is added twice, and what it refers
to is not listed. -/
theorem not_add_ok_complete :
    ∃ d d', Attempts danglingReference (.ofString "/w") [.error (.missing (.ofString "/w/b"))] d ∧
      Discovery.add danglingReference (.ofString "/w") 2 (.ofString "m") d = some (.ok (), d') ∧
      Reaches danglingReference (.ofString "/w") d'.collected (.ofString "/w/m")
        (.ofString "/w/b") ∧
      ¬ ∃ f ∈ d'.collected, f.absPath = .ofString "/w/b" := by
  let file : ModuleMapFile := ⟨"m", .ofString "/w/m", danglingReference.stat (.ofString "/w/m")⟩
  let d : Discovery := ⟨[file.absPath], [file], readActions file ++ [.stat (.ofString "/w/b"),
    .log (.failed (.missing (.ofString "/w/b")))]⟩
  let d' : Discovery := { d with actions := d.actions ++ [.log (.alreadyVisited file.absPath)] }
  have hfirst : Discovery.add danglingReference (.ofString "/w") 2 (.ofString "m") {} =
      some (.error (.missing (.ofString "/w/b")), d) := by
    decide +kernel
  have hsecond : Discovery.add danglingReference (.ofString "/w") 2 (.ofString "m") d =
      some (.ok (), d') := by
    decide +kernel
  obtain ⟨m, hm, hnames⟩ : ∃ m, ModuleMap.ofText "extern module b \"b\"" = .ok m ∧
      m.externFilenames = ["b"] :=
    exists_ofText (by decide +kernel)
  have hrefers : Refers danglingReference file (.ofString "b") :=
    ⟨m, ⟨_, rfl, hm⟩, "b", by simp [hnames], by decide⟩
  exact ⟨d, d', .add .start hfirst, hsecond, .refers .refl List.mem_cons_self hrefers, by decide⟩

end ModuleDeps
