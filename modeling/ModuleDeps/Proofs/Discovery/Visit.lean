import ModuleDeps.Proofs.Path.Text

/-!
# What a visit can come to

`Visits` lists the six outcomes of looking at one path, each with all that it does, and
`visits_visit` says that there are no others. Everything about searches is derived from it.
-/

namespace ModuleDeps

/-- The file that looking at `p` finds: it is there, is no directory, and was not visited before. -/
structure Finds (fs : FileSystem) (cwd : Path) (visited : List Path) (p : Path)
    (f : ModuleMapFile) :
    Prop where
  relPath_eq : Path.ofString f.relPath = p
  absPath_eq : f.absPath = Path.seenFrom cwd p
  stat_eq : f.stat = fs.stat f.absPath
  isValid : f.stat.isValid = true
  isFile : f.stat.isDirectory = false
  fresh : f.absPath ∉ visited

/-- What is done with a file that is found. -/
def readActions (f : ModuleMapFile) : List Action :=
  [.stat f.absPath, .log (.visiting f.absPath), .read f.absPath]

/-- The outcomes of looking at `p`. -/
inductive Visits (fs : FileSystem) (cwd : Path) (visited : List Path) (p : Path) :
    Visit → Prop where
  /-- The path is not text. -/
  | notText (h : p.text? = none) : Visits fs cwd visited p (.failure (.notUtf8 p) none [])
  /-- The file was visited before. -/
  | again (ht : p.IsText) (h : Path.seenFrom cwd p ∈ visited) :
      Visits fs cwd visited p ⟨.ok [], none, [.log (.alreadyVisited (Path.seenFrom cwd p))]⟩
  /-- Nothing is there. -/
  | missing (ht : p.IsText) (hv : Path.seenFrom cwd p ∉ visited)
      (h : (fs.stat (Path.seenFrom cwd p)).isValid = false) :
      Visits fs cwd visited p
        (.failure (.missing (Path.seenFrom cwd p)) none [.stat (Path.seenFrom cwd p)])
  /-- A directory is there. -/
  | directory (ht : p.IsText) (hv : Path.seenFrom cwd p ∉ visited)
      (hs : (fs.stat (Path.seenFrom cwd p)).isValid = true)
      (h : (fs.stat (Path.seenFrom cwd p)).isDirectory = true) :
      Visits fs cwd visited p
        (.failure (.directory (Path.seenFrom cwd p)) none [.stat (Path.seenFrom cwd p)])
  /-- No module map can be had from the file. -/
  | unreadable {f : ModuleMapFile} {e : FileError} (hf : Finds fs cwd visited p f)
      (h : readModuleMap fs f.absPath = .error e) :
      Visits fs cwd visited p (.failure e (some f) (readActions f))
  /-- The file holds a module map. -/
  | expanded {f : ModuleMapFile} {m : ModuleMap} (hf : Finds fs cwd visited p f)
      (h : readModuleMap fs f.absPath = .ok m) :
      Visits fs cwd visited p ⟨.ok (m.externFilenames.map p.reference), some f, readActions f⟩

theorem visits_visit (fs : FileSystem) (cwd : Path) (visited : List Path) (p : Path) :
    Visits fs cwd visited p (visit fs cwd visited p) := by
  unfold visit
  cases hp : p.text? with
  | none => exact .notText hp
  | some s =>
    have ht : p.IsText := Path.isText_iff_exists.mpr ⟨s, hp⟩
    simp only
    split_ifs with hv hs hd
    · exact .again ht hv
    · exact .missing ht hv (by simpa using hs)
    · exact .directory ht hv (by simpa using hs) hd
    · have hf : Finds fs cwd visited p ⟨s, Path.seenFrom cwd p, fs.stat (Path.seenFrom cwd p)⟩ :=
        ⟨Path.text?_eq_some_iff.mp hp, rfl, rfl, by simpa using hs, by simpa using hd, hv⟩
      split
      · exact .unreadable hf ‹_›
      · exact .expanded hf ‹_›

/-! ### What a visit adds -/

namespace Discovery

variable (d : Discovery)

@[simp] theorem after_visited (v : Visit) :
    (d.after v).visited = d.visited ++ v.file?.toList.map (·.absPath) := rfl

@[simp] theorem after_collected (v : Visit) :
    (d.after v).collected = d.collected ++ v.file?.toList := rfl

@[simp] theorem after_actions (v : Visit) : (d.after v).actions = d.actions ++ v.actions := rfl

end Discovery

@[simp] theorem Action.reads_append (as bs : List Action) :
    Action.reads (as ++ bs) = Action.reads as ++ Action.reads bs := List.filterMap_append

@[simp] theorem reads_readActions (f : ModuleMapFile) :
    Action.reads (readActions f) = [f.absPath] := rfl

/-- A visit reads the file that it finds, and nothing else. -/
theorem Visits.reads_actions {fs : FileSystem} {cwd : Path} {visited : List Path} {p : Path}
    {v : Visit} (h : Visits fs cwd visited p v) :
    Action.reads v.actions = v.file?.toList.map (·.absPath) := by
  cases h <;> rfl

/-- The file that a visit finds. -/
theorem Visits.finds {fs : FileSystem} {cwd : Path} {visited : List Path} {p : Path} {v : Visit}
    (h : Visits fs cwd visited p v) {f : ModuleMapFile} (hf : v.file? = some f) :
    Finds fs cwd visited p f := by
  cases h with
  | unreadable hf' h => exact Option.some.inj hf ▸ hf'
  | expanded hf' h => exact Option.some.inj hf ▸ hf'
  | notText | again | missing | directory => cases hf

/-- A visit that goes on has its place among those visited. -/
theorem Visits.mem_visited {fs : FileSystem} {cwd : Path} {visited : List Path} {p : Path}
    {v : Visit} {refs : List Path} (h : Visits fs cwd visited p v) (hr : v.result = .ok refs) :
    Path.seenFrom cwd p ∈ visited ++ v.file?.toList.map (·.absPath) := by
  cases h with
  | notText | missing | directory | unreadable => cases hr
  | again _ hp => exact List.mem_append_left _ hp
  | expanded hf =>
    rw [← hf.absPath_eq]
    exact List.mem_append_right _ List.mem_cons_self

end ModuleDeps
