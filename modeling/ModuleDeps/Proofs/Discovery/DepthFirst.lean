import ModuleDeps.Proofs.Discovery.Closure
import ModuleDeps.Proofs.Discovery.Worklist
import ModuleDeps.Proofs.Module.References
import ModuleDeps.Proofs.Writing.RoundTrip

/-!
# The order of discovery

`DepthFirst` says in which order a search lists what paths lead to: each file in front of all that
it refers to, and all that one path leads to in front of what the next one does. What was seen
before is left out. The references of a file are taken in the order in which they are written.

A search from any state lists files in this order, and it is the same search, step by step, as a
loop over a stack of paths (`add_depthFirst`).
-/

namespace ModuleDeps

variable {fs : FileSystem} {cwd : Path}

/-- The file at `q` is written as the declarations `ds`. -/
def FileSystem.Declares (fs : FileSystem) (q : Path) (ds : List Decl) : Prop :=
  ∃ content ts, fs.read q = .ok content ∧ tokenize content = .ok ts ∧ Grammar.File ds ts

/-- A file that holds a module map is written as declarations, which refer to the same files. -/
theorem FileSystem.Holds.exists_declares {q : Path} {m : ModuleMap} (h : fs.Holds q m) :
    ∃ ds, fs.Declares q ds ∧ m.externFilenames = Decl.referencesList ds := by
  obtain ⟨content, hread, hm⟩ := h
  obtain ⟨ts, ds, hcut, hfile, rfl⟩ := ModuleMap.ofText_eq_ok_iff.mp hm
  exact ⟨ds, ⟨content, ts, hread, Token.cut_iff.mpr hcut, hfile⟩,
    ModuleMap.externFilenames_ofDecls ds⟩

/-- `DepthFirst fs cwd visited ps files`: with the places `visited` seen, the paths `ps` lead to the
further files `files`, depth first. -/
inductive DepthFirst (fs : FileSystem) (cwd : Path) :
    List Path → List Path → List ModuleMapFile → Prop where
  /-- No path is left. -/
  | done {visited : List Path} : DepthFirst fs cwd visited [] []
  /-- The first path leads to a file that was seen before. -/
  | again {visited ps : List Path} {p : Path} {files : List ModuleMapFile}
      (hp : Path.seenFrom cwd p ∈ visited) (h : DepthFirst fs cwd visited ps files) :
      DepthFirst fs cwd visited (p :: ps) files
  /-- The first path leads to a file, and this one to the files `below`, by its references in the
  order in which they are written. -/
  | found {visited ps : List Path} {p : Path} {f : ModuleMapFile} {ds : List Decl}
      {below files : List ModuleMapFile} (hf : Finds fs cwd visited p f)
      (hd : fs.Declares f.absPath ds)
      (hbelow : DepthFirst fs cwd (visited ++ [f.absPath])
        ((Decl.referencesList ds).map p.reference) below)
      (h : DepthFirst fs cwd (visited ++ (f :: below).map (·.absPath)) ps files) :
      DepthFirst fs cwd visited (p :: ps) (f :: below ++ files)

theorem DepthFirst.append {visited ps qs : List Path} {files more : List ModuleMapFile}
    (h : DepthFirst fs cwd visited ps files)
    (hmore : DepthFirst fs cwd (visited ++ files.map (·.absPath)) qs more) :
    DepthFirst fs cwd visited (ps ++ qs) (files ++ more) := by
  induction h with
  | done => simpa using hmore
  | again hp _ ih => exact .again hp (ih hmore)
  | @found visited ps p f ds below files hf hd hbelow _ _ ih =>
    rw [List.append_assoc]
    refine .found hf hd hbelow (ih ?_)
    simpa using hmore

namespace Discovery

/-- The search adds files to those of `d`, which paths lead to depth first. -/
structure Adds (fs : FileSystem) (cwd : Path) (ps : List Path) (d d' : Discovery)
    (files : List ModuleMapFile) : Prop where
  visited_eq : d'.visited = d.visited ++ files.map (·.absPath)
  collected_eq : d'.collected = d.collected ++ files
  depthFirst : DepthFirst fs cwd d.visited ps files

variable {p : Path} {ps qs : List Path} {d d₁ d' : Discovery} {r : Except FileError Unit}
  {depth : Nat}

theorem Adds.append {files more : List ModuleMapFile} (h : Adds fs cwd ps d d₁ files)
    (hmore : Adds fs cwd qs d₁ d' more) : Adds fs cwd (ps ++ qs) d d' (files ++ more) where
  visited_eq := by rw [hmore.visited_eq, h.visited_eq, List.map_append, List.append_assoc]
  collected_eq := by rw [hmore.collected_eq, h.collected_eq, List.append_assoc]
  depthFirst := h.depthFirst.append (h.visited_eq ▸ hmore.depthFirst)

theorem exists_adds_of_addEach {add : Path → Discovery → Option (Except FileError Unit × Discovery)}
    (hadd : ∀ p d d', add p d = some (.ok (), d') → ∃ files, Adds fs cwd [p] d d' files)
    (h : addEach add ps d = some (.ok (), d')) : ∃ files, Adds fs cwd ps d d' files := by
  induction ps generalizing d with
  | nil =>
    obtain rfl : d = d' := by simpa [addEach] using h
    exact ⟨[], by simp, by simp, .done⟩
  | cons p ps ih =>
    rw [addEach] at h
    cases hp : add p d with
    | none => simp [hp] at h
    | some out =>
      obtain ⟨r, d₁⟩ := out
      cases r with
      | error e => simp [hp] at h
      | ok _ =>
        rw [hp] at h
        obtain ⟨files, hfiles⟩ := hadd p d d₁ hp
        obtain ⟨more, hmore⟩ := ih h
        exact ⟨files ++ more, hfiles.append hmore⟩

theorem exists_adds_of_add (h : add fs cwd depth p d = some (.ok (), d')) :
    ∃ files, Adds fs cwd [p] d d' files := by
  induction depth generalizing p d d' with
  | zero => cases h
  | succ depth ih =>
    rw [add] at h
    have hv := visits_visit fs cwd d.visited p
    generalize visit fs cwd d.visited p = v at hv h
    cases hv with
    | notText | missing | directory | unreadable => simp [Visit.failure] at h
    | again ht hp =>
      obtain rfl : d.after _ = d' := by simpa [addEach] using h
      exact ⟨[], by simp, by simp, .again hp .done⟩
    | @expanded f m hf hm =>
      obtain ⟨below, hbelow⟩ := exists_adds_of_addEach (fun _ _ _ => ih) h
      obtain ⟨ds, hds, hrefs⟩ := (readModuleMap_eq_ok_iff.mp hm).exists_declares
      refine ⟨f :: below, ?_, ?_, ?_⟩
      · simpa using hbelow.visited_eq
      · simpa using hbelow.collected_eq
      · rw [← List.append_nil (f :: below)]
        refine .found hf hds ?_ .done
        rw [← hrefs]
        simpa using hbelow.depthFirst

/-- **The search is a loop over a stack**: from any state, the recursion ends if and only if the loop
does, and both come to the same result and the same state by the same actions, in success and in
failure. If the search succeeds, it lists what it finds depth first, the references of each file in
the order in which they are written. -/
theorem add_depthFirst (fs : FileSystem) (cwd p : Path) (d d' : Discovery) :
    (∀ r, (∃ depth, add fs cwd depth p d = some (r, d')) ↔
      ∃ turns, loop fs cwd turns [p] d = some (r, d')) ∧
    ∀ depth, add fs cwd depth p d = some (.ok (), d') →
      ∃ files, d'.collected = d.collected ++ files ∧ DepthFirst fs cwd d.visited [p] files := by
  refine ⟨fun r => add_iff_loop, fun depth h => ?_⟩
  obtain ⟨files, hfiles⟩ := exists_adds_of_add h
  exact ⟨files, hfiles.collected_eq, hfiles.depthFirst⟩

/-- References at two levels of nesting, one of which leads to a file that was seen before. -/
theorem add_depthFirst_nested :
    let fs := FileSystem.holding ⟨0, 0, by decide⟩ ⟨9, 0, by decide⟩
      [(.ofString "/w/m", "module a \x7b module b \x7b extern module x \"x\" \x7d
          extern module y \"y\" \x7d extern module z \"z\""),
        (.ofString "/w/x", "extern module y \"y\" extern module u \"u\""),
        (.ofString "/w/u", ""), (.ofString "/w/z", "extern module m \"m\"")]
    let d : Discovery := { visited := [.ofString "/w/y"] }
    ∃ d', add fs (.ofString "/w") 3 (.ofString "m") d = some (.ok (), d') ∧
      d'.collected.map (·.relPath) = ["m", "x", "u", "z"] ∧
      (∃ turns, loop fs (.ofString "/w") turns [.ofString "m"] d = some (.ok (), d')) ∧
      ∃ files, d'.collected = d.collected ++ files ∧
        DepthFirst fs (.ofString "/w") d.visited [.ofString "m"] files := by
  intro fs d
  obtain ⟨⟨r, d'⟩, hadd, hout⟩ := Option.map_eq_some_iff.mp
    (show (add fs (.ofString "/w") 3 (.ofString "m") d).map
      (fun out => (out.1, out.2.collected.map (·.relPath))) =
        some (.ok (), ["m", "x", "u", "z"]) by decide +kernel)
  obtain ⟨rfl, hpaths⟩ := Prod.mk.inj hout
  obtain ⟨hiff, horder⟩ := add_depthFirst fs (.ofString "/w") (.ofString "m") d d'
  exact ⟨d', hadd, hpaths, (hiff _).mp ⟨3, hadd⟩, horder 3 hadd⟩

end Discovery

end ModuleDeps
