import ModuleDeps.Proofs.Cache.Requests

/-!
# What a cache keeps

Whatever a cache has in its table after a run of requests was found by a search for one of them, and
it is `Trustworthy`: the answer lists what the module map needed when its files were read, and none
of the files was modified so lately that it could change unnoticed.

A key holds the tidy form of a working directory, so a request may spell the directory otherwise
than the one whose answer is kept. All that an answer says of paths is therefore said of every
spelling.
-/

namespace ModuleDeps

/-- The answer `files`, kept under `key`, is right for the files in `fs`, and none of them can have
changed since with its modification time left as it was. -/
structure Trustworthy (slack : Span) (fs : FileSystem) (key : CacheKey)
    (files : List ModuleMapFile) : Prop where
  /-- The module map of the key comes first. -/
  head : files.head?.map (·.absPath) = some key.moduleMap
  /-- Each file is where its path leads to from the directory of the key. -/
  placed : ∀ f ∈ files, f.absPath = Path.seenFrom key.cwd f.path
  /-- It does not matter how that directory is spelled. -/
  respelled : ∀ f ∈ files, ∀ cwd, cwd.tidy = key.cwd → f.absPath = Path.seenFrom cwd f.path
  /-- No file is listed twice. -/
  nodup : (files.map (·.absPath)).Nodup
  /-- Each file holds a module map, and all files that it names are listed. -/
  closed : ∀ f ∈ files, ∃ m, fs.Holds f.absPath m ∧ ∀ name ∈ m.externFilenames,
    ∃ g ∈ files, g.absPath = Path.seenFrom key.cwd (f.path.reference name)
  /-- What is recorded of a file is what was known of it. -/
  stat_eq : ∀ f ∈ files, f.stat = fs.stat f.absPath
  /-- Each file is there. -/
  isValid : ∀ f ∈ files, f.stat.isValid = true
  /-- No file is a directory. -/
  isFile : ∀ f ∈ files, f.stat.isDirectory = false
  /-- Each file can be trusted. -/
  trusted : ∀ f ∈ files, f.stat.canBeStale slack = false
  /-- This is because it was modified more than the slack before it was looked up. -/
  settled : ∀ f ∈ files, ∃ t, f.stat.mtime = some t ∧
    t.nanosSinceEpoch + slack.totalNanos < f.stat.takenAt.nanosSinceEpoch

namespace Cache

/-! ### One answer -/

theorem isClosure_of_dependencies {fs : FileSystem} {cwd root : Path} {depth : Nat}
    {files : List ModuleMapFile} {actions : List Action}
    (h : dependencies fs cwd depth root = some (.ok files, actions)) :
    IsClosure fs cwd root files := by
  obtain ⟨d, -, hprogress, rfl⟩ := exists_explores h
  exact hprogress.isClosure

/-- What a module map needs can be kept if each file can be trusted. -/
theorem trustworthy_of_isClosure {slack : Span} {fs : FileSystem} {cwd root : Path}
    {files : List ModuleMapFile} (h : IsClosure fs cwd root files)
    (htrusted : ∀ f ∈ files, f.stat.canBeStale slack = false) :
    Trustworthy slack fs (.of cwd root) files where
  head := by
    obtain ⟨f, hf, hroot⟩ := Option.map_eq_some_iff.mp h.head
    rw [hf, Option.map_some, (h.located f (List.mem_of_head? hf)).absPath_eq, hroot]
    rfl
  placed f hf := by
    rw [(h.located f hf).absPath_eq]
    exact (Path.resolve_tidy_join cwd f.path).symm
  respelled f hf cwd' hcwd := by
    rw [(h.located f hf).absPath_eq]
    exact Path.resolve_join_congr hcwd.symm f.path
  nodup := h.nodup
  closed f hf := by
    obtain ⟨m, hm, hnames⟩ := h.closed f hf
    refine ⟨m, hm, fun name hname => ?_⟩
    obtain ⟨g, hg, heq⟩ := hnames name hname
    exact ⟨g, hg, heq.trans (Path.resolve_tidy_join cwd _).symm⟩
  stat_eq f hf := (h.located f hf).stat_eq
  isValid f hf := (h.located f hf).isValid
  isFile f hf := (h.located f hf).isFile
  trusted := htrusted
  settled f hf := lt_of_withinSlack_eq_false (htrusted f hf)

/-! ### Runs -/

variable {depth : Nat} {c c' : Cache} {rs : List Request}

theorem Remembers.serveAll {past : List Call} (h : Remembers depth past c)
    (hrun : c.serveAll depth rs = some c') : Remembers depth (past ++ rs.map (·.toCall)) c' := by
  induction rs generalizing c past with
  | nil =>
    cases hrun
    simpa using h
  | cons r rs ih =>
    obtain ⟨c₁, hserve, hrun⟩ := Option.bind_eq_some_iff.mp hrun
    obtain ⟨answer, actions, ha⟩ := answers_of_serve hserve
    rw [List.map_cons, List.append_cons]
    exact ih (h.concat (k := r.toCall) ha) hrun

/-- **What a cache keeps can be trusted**: after every run of requests, whatever happened to the file
system and its clock meanwhile, each kept answer is trustworthy for the files as they were at one of
the requests under its key. -/
theorem trustworthy_of_serveAll (config : Config)
    (hrun : ({ config } : Cache).serveAll depth rs = some c) :
    ∀ key files, (key, files) ∈ c.entries →
      ∃ r ∈ rs, r.key = key ∧ Trustworthy config.staleSlack r.fs key files := by
  intro key files hmem
  have hempty : Remembers depth [] { config } := fun _ _ => nofun
  obtain ⟨k, hk, rfl, ⟨actions, hfound⟩, htrusted⟩ := hempty.serveAll hrun key files hmem
  obtain ⟨r, hr, rfl⟩ := List.mem_map.mp hk
  have hconfig : c.config = config := config_of_serveAll hrun
  rw [hconfig] at htrusted
  exact ⟨r, hr, rfl, trustworthy_of_isClosure (isClosure_of_dependencies hfound) htrusted⟩

/-- An answer is replaced by one for the same module map, spelled otherwise, after an edit; a module
map that was just written is not kept. Two files that name each other are kept together. -/
theorem trustworthy_of_serveAll_replaced :
    let before : List (Path × String) :=
      [(.ofString "/w/a", "extern module b \"b\""), (.ofString "/w/b", "module b \x7b \x7d")]
    let after : List (Path × String) :=
      [(.ofString "/w/a", "module a \x7b \x7d"),
        (.ofString "/w/c", "module c \x7b extern module d \"s/d\" \x7d"),
        (.ofString "/w/s/d", "extern module c \"../c\"")]
    let rs : List Request := [
      { fs := .holding ⟨0, 0, by decide⟩ ⟨9, 0, by decide⟩ before,
        cwd := .ofString "/w", root := .ofString "a" },
      { fs := .holding ⟨0, 0, by decide⟩ ⟨1, 0, by decide⟩ before,
        cwd := .ofString "/w", root := .ofString "b" },
      { fs := .holding ⟨10, 0, by decide⟩ ⟨20, 0, by decide⟩ after,
        cwd := .ofString "/w/.", root := .ofString "./a" },
      { fs := .holding ⟨10, 0, by decide⟩ ⟨20, 0, by decide⟩ after,
        cwd := .ofString "/w", root := .ofString "c" }]
    ∃ c, ({ config := {} } : Cache).serveAll 3 rs = some c ∧
      c.entries.map (fun e => (e.1, relPaths e.2)) =
        [(⟨.ofString "/w", .ofString "/w/a"⟩, ["./a"]),
          (⟨.ofString "/w", .ofString "/w/c"⟩, ["c", "s/d"])] ∧
      ∀ key files, (key, files) ∈ c.entries →
        ∃ r ∈ rs, r.key = key ∧ Trustworthy (.ofMillis 1000) r.fs key files := by
  intro before after rs
  obtain ⟨c, hrun, hentries⟩ := Option.map_eq_some_iff.mp
    (show (({ config := {} } : Cache).serveAll 3 rs).map
      (fun c => c.entries.map fun e => (e.1, relPaths e.2)) =
        some [(⟨.ofString "/w", .ofString "/w/a"⟩, ["./a"]),
          (⟨.ofString "/w", .ofString "/w/c"⟩, ["c", "s/d"])] by decide +kernel)
  exact ⟨c, hrun, hentries, trustworthy_of_serveAll {} hrun⟩

end Cache

end ModuleDeps
