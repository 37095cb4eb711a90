import ModuleDeps.Proofs.Discovery.Pending

/-!
# What a search finds

The files that a search lists are exactly what the module map that it starts with needs: each of
them was asked for by one in front of it, and each file that one of them asks for is among them.
`IsClosure` says so without the search, and `Unusable` says what is wrong with a file that makes a
search fail. `dependencies_closure` is the statement that joins the two to the search.

The references of a file are spelled from the path by which the file was first reached, while files
are told apart by their resolved paths. The invariant of the search, `Progress`, therefore keeps for
each file found so far that what it asks for is found or still pending, by its spelling.
-/

namespace ModuleDeps

/-- The path that the file is referred to by. -/
def ModuleMapFile.path (f : ModuleMapFile) : Path := .ofString f.relPath

/-- The file at `q` holds the module map `m`. -/
def FileSystem.Holds (fs : FileSystem) (q : Path) (m : ModuleMap) : Prop :=
  ∃ content, fs.read q = .ok content ∧ ModuleMap.ofText content = .ok m

variable {fs : FileSystem} {cwd root : Path}

theorem FileSystem.Holds.unique {q : Path} {m m' : ModuleMap} (h : fs.Holds q m)
    (h' : fs.Holds q m') : m = m' := by
  obtain ⟨content, hr, hm⟩ := h
  obtain ⟨content', hr', hm'⟩ := h'
  obtain rfl : content = content' := Except.ok.inj (hr.symm.trans hr')
  exact Except.ok.inj (hm.symm.trans hm')

theorem readModuleMap_eq_ok_iff {q : Path} {m : ModuleMap} :
    readModuleMap fs q = .ok m ↔ fs.Holds q m := by
  unfold readModuleMap FileSystem.Holds ModuleMap.ofFile
  cases hr : fs.read q with
  | error e => simp [Except.mapError, bind, Except.bind]
  | ok content =>
    cases hm : ModuleMap.ofText content <;> simp [Except.mapError, bind, Except.bind, hm]

/-! ### References -/

/-- The module map in the file `f` names a file at `p`. -/
def Refers (fs : FileSystem) (f : ModuleMapFile) (p : Path) : Prop :=
  ∃ m, fs.Holds f.absPath m ∧ ∃ name ∈ m.externFilenames, p = f.path.reference name

/-- The paths that a search which starts with `root` may come to, as they are spelled on the way. -/
inductive LeadsTo (fs : FileSystem) (cwd root : Path) : Path → Prop where
  /-- The path that it starts with. -/
  | root : LeadsTo fs cwd root root
  /-- A path that the module map at one of them names. -/
  | reference {p : Path} {m : ModuleMap} {name : String} (h : LeadsTo fs cwd root p)
      (hm : fs.Holds (Path.seenFrom cwd p) m) (hname : name ∈ m.externFilenames) :
      LeadsTo fs cwd root (p.reference name)

/-- With `files` found, `p` is to be looked at: it is where the search starts, if nothing was found
yet, or one of the files refers to it. -/
def Asked (fs : FileSystem) (root : Path) (files : List ModuleMapFile) (p : Path) : Prop :=
  files = [] ∧ p = root ∨ ∃ f ∈ files, Refers fs f p

/-- Each file was asked for by those in front of it. -/
def InOrder (fs : FileSystem) (root : Path) (files : List ModuleMapFile) : Prop :=
  ∀ earlier f later, files = earlier ++ f :: later → Asked fs root earlier f.path

/-- The file is what is found at its resolved path, and can be read as a file. -/
structure Located (fs : FileSystem) (cwd : Path) (f : ModuleMapFile) : Prop where
  absPath_eq : f.absPath = Path.seenFrom cwd f.path
  stat_eq : f.stat = fs.stat f.absPath
  isValid : f.stat.isValid = true
  isFile : f.stat.isDirectory = false

/-- `files` is what the module map at `root` needs. -/
structure IsClosure (fs : FileSystem) (cwd root : Path) (files : List ModuleMapFile) : Prop where
  /-- The module map itself comes first. -/
  head : files.head?.map (·.path) = some root
  /-- Each file is there. -/
  located : ∀ f ∈ files, Located fs cwd f
  /-- No file is listed twice. -/
  nodup : (files.map (·.absPath)).Nodup
  /-- Each file holds a module map, and all files that it names are listed. -/
  closed : ∀ f ∈ files, ∃ m, fs.Holds f.absPath m ∧
    ∀ name ∈ m.externFilenames, ∃ g ∈ files, g.absPath = Path.seenFrom cwd (f.path.reference name)
  /-- Each file but the first is named by one in front of it. -/
  named : ∀ earlier f later, files = earlier ++ f :: later → earlier ≠ [] →
    ∃ g ∈ earlier, Refers fs g f.path

/-- What is wrong with the file at `q`. -/
inductive Unusable (fs : FileSystem) (q : Path) : FileError → Prop where
  /-- It is not there. -/
  | missing (h : (fs.stat q).isValid = false) : Unusable fs q (.missing q)
  /-- It is a directory. -/
  | directory (h : (fs.stat q).isDirectory = true) : Unusable fs q (.directory q)
  /-- It is not read. -/
  | unreadable {failure : ReadFailure} (h : fs.read q = .error failure) :
      Unusable fs q (.unreadable q failure)
  /-- Its content is no module map. -/
  | malformed {content : String} {e : SyntaxError} (hr : fs.read q = .ok content)
      (h : ModuleMap.ofText content = .error e) : Unusable fs q (.malformed q e)

theorem unusable_of_readModuleMap {q : Path} {e : FileError} (h : readModuleMap fs q = .error e) :
    Unusable fs q e := by
  unfold readModuleMap ModuleMap.ofFile at h
  cases hr : fs.read q with
  | error failure =>
    rw [hr] at h
    cases h
    exact .unreadable hr
  | ok content =>
    cases hm : ModuleMap.ofText content with
    | ok m => simp [Except.mapError, bind, Except.bind, hr, hm] at h
    | error s =>
      obtain rfl : .malformed q s = e := by
        simpa [Except.mapError, bind, Except.bind, hr, hm] using h
      exact .malformed hr hm

theorem Asked.append {files : List ModuleMapFile} {p : Path} (h : Asked fs root files p)
    (hne : files ≠ []) (more : List ModuleMapFile) : Asked fs root (files ++ more) p := by
  rcases h with ⟨h, -⟩ | ⟨f, hf, hp⟩
  · exact absurd h hne
  · exact .inr ⟨f, List.mem_append_left more hf, hp⟩

theorem InOrder.concat {files : List ModuleMapFile} {f : ModuleMapFile} (h : InOrder fs root files)
    (hf : Asked fs root files f.path) : InOrder fs root (files ++ [f]) := by
  intro earlier g later heq
  rcases List.eq_nil_or_concat later with rfl | ⟨later, last, rfl⟩
  · obtain ⟨rfl, h⟩ := List.append_inj' heq rfl
    cases h
    exact hf
  · rw [List.concat_eq_append, ← List.cons_append, ← List.append_assoc] at heq
    exact h earlier g later (List.append_inj' heq rfl).1

theorem Finds.located {visited : List Path} {p : Path} {f : ModuleMapFile}
    (h : Finds fs cwd visited p f) : Located fs cwd f :=
  ⟨by rw [ModuleMapFile.path, h.relPath_eq, h.absPath_eq], h.stat_eq, h.isValid, h.isFile⟩

/-! ### The invariant of the search -/

/-- How far a search for the files that `root` needs has come at `d`, with the paths `ps`
pending. -/
structure Progress (fs : FileSystem) (cwd root : Path) (ps : List Path) (d : Discovery) : Prop where
  visited_eq : d.visited = d.collected.map (·.absPath)
  reads_eq : Action.reads d.actions = d.collected.map (·.absPath)
  /-- The search starts with the root alone. -/
  start : d.collected = [] → ps = [root]
  located : ∀ f ∈ d.collected, Located fs cwd f
  nodup : d.visited.Nodup
  inOrder : InOrder fs root d.collected
  /-- Nothing is pending that was not asked for. -/
  asked : ∀ p ∈ ps, Asked fs root d.collected p
  /-- What a file asks for is pending or was visited. -/
  closed : ∀ f ∈ d.collected, ∃ m, fs.Holds f.absPath m ∧ ∀ name ∈ m.externFilenames,
    f.path.reference name ∈ ps ∨ Path.seenFrom cwd (f.path.reference name) ∈ d.visited

theorem progress_start (fs : FileSystem) (cwd root : Path) : Progress fs cwd root [root] {} where
  visited_eq := rfl
  reads_eq := rfl
  start _ := rfl
  located := nofun
  nodup := List.nodup_nil
  inOrder earlier f later h := by simp at h
  asked p hp := .inl ⟨rfl, List.mem_singleton.mp hp⟩
  closed := nofun

/-- A file that was visited before is passed over. -/
theorem Progress.again {p : Path} {ps : List Path} {d : Discovery}
    (h : Progress fs cwd root (p :: ps) d)
    (hv : Path.seenFrom cwd p ∈ d.visited) {actions : List Action}
    (ha : Action.reads actions = []) :
    Progress fs cwd root ps (d.after ⟨.ok [], none, actions⟩) where
  visited_eq := by simpa using h.visited_eq
  reads_eq := by simpa [ha] using h.reads_eq
  start hd := by
    rw [h.visited_eq] at hv
    simp_all
  located f hf := h.located f (by simpa using hf)
  nodup := by simpa using h.nodup
  inOrder := by simpa using h.inOrder
  asked q hq := by simpa using h.asked q (List.mem_cons_of_mem p hq)
  closed f hf := by
    obtain ⟨m, hm, hn⟩ := h.closed f (by simpa using hf)
    refine ⟨m, hm, fun name hname => ?_⟩
    simp only [Discovery.after_visited, Option.toList_none, List.map_nil, List.append_nil]
    rcases hn name hname with hp | hp
    · rcases List.mem_cons.mp hp with rfl | hp
      · exact .inr hv
      · exact .inl hp
    · exact .inr hp

/-- A file that is found is listed, and what it asks for becomes pending. -/
theorem Progress.expanded {p : Path} {ps : List Path} {d : Discovery} {f : ModuleMapFile}
    {m : ModuleMap} (h : Progress fs cwd root (p :: ps) d) (hf : Finds fs cwd d.visited p f)
    (hm : fs.Holds f.absPath m) :
    Progress fs cwd root (m.externFilenames.map p.reference ++ ps)
      (d.after ⟨.ok (m.externFilenames.map p.reference), some f, readActions f⟩) where
  visited_eq := by simp [h.visited_eq]
  reads_eq := by simp [h.reads_eq]
  start hd := by simp at hd
  located g hg := by
    rcases List.mem_append.mp hg with hg | hg
    · exact h.located g hg
    · obtain rfl : g = f := by simpa using hg
      exact hf.located
  nodup := by simpa [List.nodup_append] using ⟨h.nodup, fun q hq he => hf.fresh (he ▸ hq)⟩
  inOrder := h.inOrder.concat (by
    rw [ModuleMapFile.path, hf.relPath_eq]
    exact h.asked p List.mem_cons_self)
  asked q hq := by
    rcases List.mem_append.mp hq with hq | hq
    · obtain ⟨name, hname, rfl⟩ := List.mem_map.mp hq
      exact .inr ⟨f, by simp, m, hm, name, hname, by rw [ModuleMapFile.path, hf.relPath_eq]⟩
    · have hne : d.collected ≠ [] := by
        intro hnil
        have := h.start hnil
        simp_all
      exact (h.asked q (List.mem_cons_of_mem p hq)).append hne [f]
  closed g hg := by
    simp only [Discovery.after_visited, Option.toList_some, List.map_cons, List.map_nil]
    rcases List.mem_append.mp hg with hg | hg
    · obtain ⟨m', hm', hn⟩ := h.closed g hg
      refine ⟨m', hm', fun name hname => ?_⟩
      rcases hn name hname with hp | hp
      · rcases List.mem_cons.mp hp with heq | hp
        · -- the reference is the one that was looked at
          rw [heq, ← hf.absPath_eq]
          exact .inr (List.mem_append_right _ List.mem_cons_self)
        · exact .inl (List.mem_append_right _ hp)
      · exact .inr (List.mem_append_left _ hp)
    · obtain rfl : g = f := by simpa using hg
      refine ⟨m, hm, fun name hname => .inl (List.mem_append_left _ ?_)⟩
      rw [ModuleMapFile.path, hf.relPath_eq]
      exact List.mem_map_of_mem hname

/-- A visit keeps the invariant. -/
theorem Progress.visit {p : Path} {ps refs : List Path} {d : Discovery}
    (h : Progress fs cwd root (p :: ps) d) (hr : (visit fs cwd d.visited p).result = .ok refs) :
    Progress fs cwd root (refs ++ ps) (d.after (visit fs cwd d.visited p)) := by
  have hv := visits_visit fs cwd d.visited p
  generalize ModuleDeps.visit fs cwd d.visited p = v at hv hr
  cases hv with
  | notText | missing | directory | unreadable => cases hr
  | again ht hp =>
    cases hr
    exact h.again hp rfl
  | expanded hf hm =>
    cases hr
    exact h.expanded hf (readModuleMap_eq_ok_iff.mp hm)

/-! ### What the search answers -/

/-- Why a search for the files that `root` needs fails, after it read the files at `reads`. -/
inductive Blocked (fs : FileSystem) (cwd root : Path) (reads : List Path) : FileError → Prop where
  /-- The path that it starts with is not text. -/
  | notText (h : root.text? = none) : Blocked fs cwd root reads (.notUtf8 root)
  /-- The search starts with a file that is unusable, or a file that was read refers to one. -/
  | unusable {earlier : List ModuleMapFile} {p : Path} {e : FileError}
      (hr : earlier.map (·.absPath) <+: reads) (hl : ∀ f ∈ earlier, Located fs cwd f)
      (ho : InOrder fs root earlier) (ha : Asked fs root earlier p)
      (hu : Unusable fs (Path.seenFrom cwd p) e) : Blocked fs cwd root reads e

/-- With nothing pending, what was found is closed. -/
theorem Progress.isClosure {d : Discovery} (h : Progress fs cwd root [] d) :
    IsClosure fs cwd root d.collected where
  head := by
    cases hc : d.collected with
    | nil => exact absurd (h.start hc) (by simp)
    | cons f files =>
      rcases h.inOrder [] f files hc with ⟨-, hf⟩ | ⟨g, hg, -⟩
      · rw [List.head?_cons, Option.map_some, hf]
      · cases hg
  located := h.located
  nodup := h.visited_eq ▸ h.nodup
  closed f hf := by
    obtain ⟨m, hm, hn⟩ := h.closed f hf
    refine ⟨m, hm, fun name hname => ?_⟩
    rcases hn name hname with hp | hp
    · cases hp
    · rw [h.visited_eq] at hp
      exact List.mem_map.mp hp
  named earlier f later heq hne := by
    rcases h.inOrder earlier f later heq with ⟨hnil, -⟩ | hg
    · exact absurd hnil hne
    · exact hg

/-- A visit that fails says what is wrong. -/
theorem Progress.blocked {p : Path} {ps : List Path} {d d' : Discovery} {e : FileError}
    (h : Progress fs cwd root (p :: ps) d) (hf : Discovery.Fails fs cwd p d e d') :
    Blocked fs cwd root (Action.reads d'.actions) e := by
  obtain ⟨he, rfl⟩ := hf
  have hv := visits_visit fs cwd d.visited p
  have ha := h.asked p List.mem_cons_self
  generalize ModuleDeps.visit fs cwd d.visited p = v at hv he
  have hblocked (hu : Unusable fs (Path.seenFrom cwd p) e) :
      Blocked fs cwd root (Action.reads (d.after v).actions) e := by
    refine .unusable ?_ h.located h.inOrder ha hu
    rw [Discovery.after_actions, Action.reads_append, h.reads_eq]
    exact List.prefix_append _ _
  cases hv with
  | again | expanded => cases he
  | missing _ _ hs => cases he; exact hblocked (.missing hs)
  | directory _ _ _ hd => cases he; exact hblocked (.directory hd)
  | unreadable hf hm =>
    cases he
    exact hblocked (hf.absPath_eq ▸ unusable_of_readModuleMap hm)
  | notText hp =>
    cases he
    -- a path that a file refers to is text, so this one is where the search starts
    rcases ha with ⟨-, rfl⟩ | ⟨f, hf, m, hm, name, hname, rfl⟩
    · exact .notText hp
    · obtain ⟨s, hs⟩ := Path.isText_iff_exists.mp
        (Path.isText_reference (Path.isText_ofString f.relPath) name)
      rw [ModuleMapFile.path, hs] at hp
      cases hp

/-- **A search lists what the module map needs**: each file but the first is named by one in front
of it, no file is listed twice, and all files that they name are listed. If it fails, something is
wrong with the path that it starts with, or with a file that it starts with or was sent to by the
files that it read. -/
theorem dependencies_closure {depth : Nat} {result : Except FileError (List ModuleMapFile)}
    {actions : List Action} (h : dependencies fs cwd depth root = some (result, actions)) :
    match result with
    | .ok files => IsClosure fs cwd root files
    | .error e => Blocked fs cwd root (Action.reads actions) e := by
  obtain ⟨r, d, hrun, rfl, rfl⟩ := Discovery.explores_of_dependencies h
  obtain ⟨hok, herror⟩ := hrun.invariant (Progress fs cwd root) (fun _ _ _ _ hp => hp.visit)
    (progress_start fs cwd root)
  cases r with
  | ok _ => exact (hok rfl).isClosure
  | error e =>
    obtain ⟨p, ps, d₀, hp, hf⟩ := herror e rfl
    exact hp.blocked hf

/-- The file system that holds the given files, each modified at `mtime`, at the moment `now`. -/
def FileSystem.holding (mtime now : Moment) (files : List (Path × String)) : FileSystem where
  stat q := (files.lookup q).elim (.missing now) fun content =>
    ⟨true, false, content.utf8ByteSize, some mtime, now⟩
  read q := (files.lookup q).elim (.error (.io .notFound)) .ok

theorem externFilenames_eq {content : String} {m : ModuleMap} {names : List String}
    (hm : ModuleMap.ofText content = .ok m)
    (h : (ModuleMap.ofText content).map (·.externFilenames) = .ok names) :
    m.externFilenames = names := by
  rw [hm] at h
  exact Except.ok.inj h

theorem exists_ofText {content : String} {names : List String}
    (h : (ModuleMap.ofText content).map (·.externFilenames) = .ok names) :
    ∃ m, ModuleMap.ofText content = .ok m ∧ m.externFilenames = names := by
  cases hm : ModuleMap.ofText content with
  | ok m => exact ⟨m, rfl, externFilenames_eq hm h⟩
  | error e =>
    rw [hm] at h
    cases h

/-- A file that refers to a name that is not there. -/
def danglingReference : FileSystem :=
  .holding ⟨0, 0, nanosPerSecond_pos⟩ ⟨9, 0, nanosPerSecond_pos⟩
    [(.ofString "/w/m", "extern module b \"b\"")]

/-- Two files that name each other are listed once each. -/
theorem dependencies_closure_cycle :
    let fs := FileSystem.holding ⟨0, 0, by decide⟩ ⟨9, 0, by decide⟩
      [(.ofString "/w/a", "extern module b \"b\""), (.ofString "/w/b", "extern module a \"./a\"")]
    let files : List ModuleMapFile :=
      [⟨"a", .ofString "/w/a", fs.stat (.ofString "/w/a")⟩,
        ⟨"b", .ofString "/w/b", fs.stat (.ofString "/w/b")⟩]
    dependencies fs (.ofString "/w") 3 (.ofString "a") =
        some (.ok files, files.flatMap readActions ++ [.log (.alreadyVisited (.ofString "/w/a"))]) ∧
      IsClosure fs (.ofString "/w") (.ofString "a") files := by
  intro fs files
  have h : dependencies fs (.ofString "/w") 3 (.ofString "a") =
      some (.ok files, files.flatMap readActions ++
        [.log (.alreadyVisited (.ofString "/w/a"))]) := by
    decide +kernel
  exact ⟨h, dependencies_closure h⟩

end ModuleDeps
