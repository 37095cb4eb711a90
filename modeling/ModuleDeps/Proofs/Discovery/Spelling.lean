import Mathlib.Data.List.Forall2
import ModuleDeps.Cache
import ModuleDeps.Proofs.Discovery.Closure
import ModuleDeps.Proofs.Path.Directory

/-!
# How a path is spelled

A cache keeps one answer for all paths that lead to the same file. That is right if a search does
not depend on how the path of its root is spelled, and it does depend on it: references are taken
from the directory part of the path as it is spelled, and only files are told apart by the places
that paths lead to. `dependencies_spelling_iff` says for which spellings the answers agree: those
whose directory parts lead to the same place, as all do that end in an ordinary name. It leaves out
references that are spelled by dots alone and still lead to a file, since a file that is its own
directory has no directory part that all spellings agree on (`not_dependencies_spelling`).

The proof runs two searches side by side. What they look at next leads to the same place, and to the
same directory too if there is a file (`SameFile`), so what they find there refers to the same
places again.
-/

namespace ModuleDeps

/-- A file is at `q`. -/
def FileSystem.IsFile (fs : FileSystem) (q : Path) : Prop :=
  (fs.stat q).isValid = true ∧ (fs.stat q).isDirectory = false

/-- The places that files are at. -/
def absPaths (files : List ModuleMapFile) : List Path := files.map (·.absPath)

/-- What a search comes to, without how paths are spelled on the way: the places of the files, or
the failure. -/
def dependencyPlaces (fs : FileSystem) (cwd : Path) (depth : Nat) (root : Path) :
    Option (Except FileError (List Path)) :=
  (dependencies fs cwd depth root).map fun out => out.1.map absPaths

/-- No module map that a search from `root` may come to refers to a file by dots alone. -/
def NamesFiles (fs : FileSystem) (cwd root : Path) : Prop :=
  ∀ p m name, LeadsTo fs cwd root p → fs.Holds (Path.seenFrom cwd p) m → name ∈ m.externFilenames →
    fs.IsFile (Path.seenFrom cwd (p.reference name)) → (Path.ofString name).HasName

/-- The directory parts of both paths lead to the same place. -/
def SameDirectory (cwd p q : Path) : Prop :=
  Path.seenFrom cwd p.dirname = Path.seenFrom cwd q.dirname

/-! ### Searches side by side -/

/-- Two paths that lead to the same place, and are in the same directory if a file is there. -/
structure SameFile (fs : FileSystem) (cwd p q : Path) : Prop where
  left : p.IsText
  right : q.IsText
  place : Path.seenFrom cwd p = Path.seenFrom cwd q
  directory : fs.IsFile (Path.seenFrom cwd p) → SameDirectory cwd p q

/-- Two searches have found files at the same places. -/
structure Discovery.SamePlaces (d₁ d₂ : Discovery) : Prop where
  visited : d₁.visited = d₂.visited
  collected : absPaths d₁.collected = absPaths d₂.collected

/-- Two visits come to the same, and what they refer to are the same files in turn. -/
inductive Visit.SamePlaces (R : Path → Path → Prop) (v₁ v₂ : Visit) : Prop where
  /-- Both fail. -/
  | error {e : FileError} (h₁ : v₁.result = .error e) (h₂ : v₂.result = .error e)
      (hf : v₁.file?.map (·.absPath) = v₂.file?.map (·.absPath)) : SamePlaces R v₁ v₂
  /-- Both go on. -/
  | ok {ps qs : List Path} (h₁ : v₁.result = .ok ps) (h₂ : v₂.result = .ok qs)
      (hf : v₁.file?.map (·.absPath) = v₂.file?.map (·.absPath)) (hr : List.Forall₂ R ps qs) :
      SamePlaces R v₁ v₂

theorem Discovery.SamePlaces.after {d₁ d₂ : Discovery} {v₁ v₂ : Visit} (hd : d₁.SamePlaces d₂)
    (hf : v₁.file?.map (·.absPath) = v₂.file?.map (·.absPath)) :
    (d₁.after v₁).SamePlaces (d₂.after v₂) := by
  have hfiles : v₁.file?.toList.map (·.absPath) = v₂.file?.toList.map (·.absPath) := by
    cases h₁ : v₁.file? <;> cases h₂ : v₂.file? <;> simp_all
  constructor
  · rw [after_visited, after_visited, hd.visited, hfiles]
  · have hcollected := hd.collected
    unfold absPaths at hcollected ⊢
    rw [after_collected, after_collected, List.map_append, List.map_append, hcollected, hfiles]

section

variable {fs : FileSystem} {cwd root : Path}

/-- What a search from `root` may look at where another one looks at the same file. -/
def Alike (fs : FileSystem) (cwd root p q : Path) : Prop :=
  LeadsTo fs cwd root p ∧ SameFile fs cwd p q

/-- A module map refers to the same files, however its own path is spelled. -/
theorem Alike.reference (hn : NamesFiles fs cwd root) {p q : Path} (h : Alike fs cwd root p q)
    (hdir : SameDirectory cwd p q) {m : ModuleMap} (hm : fs.Holds (Path.seenFrom cwd p) m)
    {name : String} (hname : name ∈ m.externFilenames) :
    Alike fs cwd root (p.reference name) (q.reference name) := by
  obtain ⟨hleads, hfile⟩ := h
  refine ⟨.reference hleads hm hname, ?_, ?_, ?_, fun his => ?_⟩
  · exact Path.isText_reference hfile.left name
  · exact Path.isText_reference hfile.right name
  · exact Path.seenFrom_reference_congr hdir name
  · exact Path.seenFrom_dirname_reference_congr hdir (hn p m name hleads hm hname his)

/-- Visits of the same file come to the same. -/
theorem Alike.visit (hn : NamesFiles fs cwd root) {p q : Path} (h : Alike fs cwd root p q)
    (visited : List Path) :
    (visit fs cwd visited p).SamePlaces (Alike fs cwd root) (visit fs cwd visited q) := by
  obtain ⟨s, hs⟩ := Path.isText_iff_exists.mp h.2.left
  obtain ⟨t, ht⟩ := Path.isText_iff_exists.mp h.2.right
  simp only [ModuleDeps.visit, hs, ht, ← h.2.place]
  split_ifs with hv hvalid hdir
  · exact .ok rfl rfl rfl .nil
  · exact .error rfl rfl rfl
  · exact .error rfl rfl rfl
  · cases hm : readModuleMap fs (Path.seenFrom cwd p) with
    | error e => exact .error rfl rfl rfl
    | ok m =>
      have his : fs.IsFile (Path.seenFrom cwd p) := ⟨by simpa using hvalid, by simpa using hdir⟩
      refine .ok rfl rfl rfl ?_
      rw [List.forall₂_map_left_iff, List.forall₂_map_right_iff, List.forall₂_same]
      intro name hname
      exact h.reference hn (h.2.directory his) (readModuleMap_eq_ok_iff.mp hm) hname

namespace Discovery

/-- Two searches end alike. -/
def SameEnd (a b : Except FileError Unit × Discovery) : Prop := a.1 = b.1 ∧ a.2.SamePlaces b.2

theorem addEach_alike {R : Path → Path → Prop}
    {add : Path → Discovery → Option (Except FileError Unit × Discovery)}
    (hadd : ∀ p q d₁ d₂, R p q → SamePlaces d₁ d₂ → Option.Rel SameEnd (add p d₁) (add q d₂))
    {ps qs : List Path} (h : List.Forall₂ R ps qs) {d₁ d₂ : Discovery} (hd : d₁.SamePlaces d₂) :
    Option.Rel SameEnd (addEach add ps d₁) (addEach add qs d₂) := by
  induction h generalizing d₁ d₂ with
  | nil => exact .some ⟨rfl, hd⟩
  | @cons p q ps qs hpq _ ih =>
    have hrel := hadd p q d₁ d₂ hpq hd
    rw [addEach, addEach]
    generalize add p d₁ = a at hrel
    generalize add q d₂ = b at hrel
    cases hrel with
    | none => exact .none
    | @some a b hab =>
      obtain ⟨r, e₁⟩ := a
      obtain ⟨r', e₂⟩ := b
      obtain ⟨rfl, he⟩ : r = r' ∧ e₁.SamePlaces e₂ := hab
      cases r with
      | ok _ => exact ih he
      | error e => exact .some ⟨rfl, he⟩

/-- Searches that look at the same file first end alike. -/
theorem add_alike (hn : NamesFiles fs cwd root) {depth : Nat} {p q : Path} {d₁ d₂ : Discovery}
    (h : Alike fs cwd root p q) (hd : d₁.SamePlaces d₂) :
    Option.Rel SameEnd (add fs cwd depth p d₁) (add fs cwd depth q d₂) := by
  induction depth generalizing p q d₁ d₂ with
  | zero => exact .none
  | succ depth ih =>
    have hv := h.visit hn d₁.visited
    rw [add, add, ← hd.visited]
    generalize ModuleDeps.visit fs cwd d₁.visited p = v₁ at hv
    generalize ModuleDeps.visit fs cwd d₁.visited q = v₂ at hv
    cases hv with
    | error h₁ h₂ hf =>
      simp only [h₁, h₂]
      exact .some ⟨rfl, hd.after hf⟩
    | ok h₁ h₂ hf hr =>
      simp only [h₁, h₂]
      exact addEach_alike (R := Alike fs cwd root) (fun _ _ _ _ h hd => ih h hd) hr (hd.after hf)

end Discovery

/-- Searches for the same file in the same directory come to the same. -/
theorem dependencyPlaces_congr (hn : NamesFiles fs cwd root) {root' : Path}
    (h : SameFile fs cwd root root') (depth : Nat) :
    dependencyPlaces fs cwd depth root = dependencyPlaces fs cwd depth root' := by
  have hrel : Option.Rel Discovery.SameEnd (Discovery.add fs cwd depth root {})
      (Discovery.add fs cwd depth root' {}) :=
    Discovery.add_alike hn ⟨.root, h⟩ ⟨rfl, rfl⟩
  simp only [dependencyPlaces, dependencies, Option.map_map]
  generalize Discovery.add fs cwd depth root {} = a at hrel
  generalize Discovery.add fs cwd depth root' {} = b at hrel
  cases hrel with
  | none => rfl
  | @some a b hab =>
    obtain ⟨hr, hd⟩ := hab
    simp only [Option.map_some, Function.comp_apply, Option.some.injEq, hr]
    cases b.1 with
    | error e => rfl
    | ok _ => exact congrArg Except.ok hd.collected

end

/-! ### A file that tells directories apart -/

/-- The name of the only file that `probe` refers to. -/
def probeName : String := "x"

/-- A file system with a single file at `q`, which refers to `probeName`. -/
def probe (q : Path) : FileSystem :=
  .holding ⟨0, 0, nanosPerSecond_pos⟩ ⟨9, 0, nanosPerSecond_pos⟩ [(q, "extern module x \"x\"")]

theorem stat_probe (q r : Path) : ((probe q).stat r).isDirectory = false ∧
    (((probe q).stat r).isValid = true ↔ r = q) := by
  by_cases h : r = q
  · simp [probe, FileSystem.holding, h, FileStat.isValid]
  · have hbeq : (r == q) = false := by simpa using h
    simp [probe, FileSystem.holding, List.lookup_cons, h, hbeq, FileStat.isValid, FileStat.missing]

theorem holds_probe_iff {q r : Path} {m : ModuleMap} :
    (probe q).Holds r m ↔ r = q ∧ ModuleMap.ofText "extern module x \"x\"" = .ok m := by
  by_cases h : r = q
  · simp [probe, FileSystem.holding, FileSystem.Holds, h]
  · have hbeq : (r == q) = false := by simpa using h
    simp [probe, FileSystem.holding, FileSystem.Holds, List.lookup_cons, h, hbeq]

theorem externFilenames_probe {m : ModuleMap}
    (h : ModuleMap.ofText "extern module x \"x\"" = .ok m) : m.externFilenames = [probeName] :=
  externFilenames_eq h (by decide +kernel)

theorem namesFiles_probe (q cwd root : Path) : NamesFiles (probe q) cwd root := by
  intro p m name _ hm hname _
  obtain ⟨-, hm⟩ := holds_probe_iff.mp hm
  rw [externFilenames_probe hm, List.mem_singleton] at hname
  subst hname
  exact .inr (by decide)

/-- A search in `probe` finds its file, and looks at what it refers to. -/
theorem dependencyPlaces_probe {cwd root : Path} (h : root.IsText) :
    dependencyPlaces (probe (Path.seenFrom cwd root)) cwd 2 root =
      if Path.seenFrom cwd (root.reference probeName) = Path.seenFrom cwd root then
        some (.ok [Path.seenFrom cwd root])
      else some (.error (.missing (Path.seenFrom cwd (root.reference probeName)))) := by
  generalize hq : Path.seenFrom cwd root = q
  obtain ⟨s, hs⟩ := Path.isText_iff_exists.mp h
  obtain ⟨t, ht⟩ := Path.isText_iff_exists.mp (Path.isText_reference h probeName)
  obtain ⟨m, hm, hnames⟩ : ∃ m, ModuleMap.ofText "extern module x \"x\"" = .ok m ∧
      m.externFilenames = [probeName] :=
    exists_ofText (by decide +kernel)
  have hread : readModuleMap (probe q) q = .ok m :=
    readModuleMap_eq_ok_iff.mpr (holds_probe_iff.mpr ⟨rfl, hm⟩)
  have hvalid : ((probe q).stat q).isValid = true := (stat_probe q q).2.mpr rfl
  by_cases heq : Path.seenFrom cwd (root.reference probeName) = q
  · simp [dependencyPlaces, dependencies, Discovery.add, Discovery.addEach, visit, Discovery.after,
      absPaths, hs, ht, hq, hvalid, (stat_probe q _).1, hread, hnames, heq,
      Except.map]
  · have hmissing : ((probe q).stat (Path.seenFrom cwd (root.reference probeName))).isValid =
        false := by
      simpa using mt (stat_probe q _).2.mp heq
    simp [dependencyPlaces, dependencies, Discovery.add, Discovery.addEach, visit, Discovery.after,
      Visit.failure, hs, ht, hq, hvalid, (stat_probe q _).1, hread, hnames, heq,
      hmissing, Except.map]

/-- One name leads on to different places from different directories. -/
theorem sameDirectory_of_reference {cwd p q : Path}
    (h : Path.seenFrom cwd (p.reference probeName) = Path.seenFrom cwd (q.reference probeName)) :
    SameDirectory cwd p q := by
  have hrel : (Path.ofString probeName).isAbsolute = false := by decide
  have hnames : (Path.ofString probeName).names = [[0x78]] := by decide
  simp only [Path.seenFrom, Path.reference, Path.resolve_join_join] at h
  obtain ⟨ha, hn⟩ := Path.resolve_eq_iff.mp h
  rw [Path.isAbsolute_join (cwd.join p.dirname), Path.isAbsolute_join (cwd.join q.dirname), hrel,
    Bool.false_or, Bool.false_or] at ha
  rw [Path.resolvedNames_join hrel, Path.resolvedNames_join hrel, hnames] at hn
  simp only [List.foldl_cons, List.foldl_nil, Path.step,
    if_neg (show ([0x78] : Name) ≠ Path.dotDot by decide), List.reverse_cons,
    List.reverse_reverse] at hn
  exact Path.resolve_eq_iff.mpr ⟨ha, (List.append_inj' hn rfl).1⟩

theorem sameDirectory_of_dependencyPlaces {cwd root₁ root₂ : Path} (h₁ : root₁.IsText)
    (h₂ : root₂.IsText) (hplace : Path.seenFrom cwd root₁ = Path.seenFrom cwd root₂)
    (h : dependencyPlaces (probe (Path.seenFrom cwd root₁)) cwd 2 root₁ =
      dependencyPlaces (probe (Path.seenFrom cwd root₁)) cwd 2 root₂) :
    SameDirectory cwd root₁ root₂ := by
  rw [dependencyPlaces_probe h₁, hplace, dependencyPlaces_probe h₂] at h
  apply sameDirectory_of_reference
  split_ifs at h with h₁ h₂ h₂
  · rw [h₁, h₂]
  · cases h
  · cases h
  · simpa using h

/-! ### When spellings can share an answer -/

/-- **Which spellings of a path can share an answer.** Two paths that lead to the same file have the
same dependencies, whatever the file system holds, if and only if their directory parts lead to the
same place, as they do if both end in an ordinary name. Files that are referred to by dots alone are
left out. -/
theorem dependencies_spelling_iff {cwd root₁ root₂ : Path}
    (hkey : CacheKey.of cwd root₁ = CacheKey.of cwd root₂) (h₁ : root₁.IsText) (h₂ : root₂.IsText) :
    (root₁.EndsInName → root₂.EndsInName → SameDirectory cwd root₁ root₂) ∧
    (SameDirectory cwd root₁ root₂ ↔ ∀ fs, NamesFiles fs cwd root₁ → ∀ depth,
      dependencyPlaces fs cwd depth root₁ = dependencyPlaces fs cwd depth root₂) := by
  have hplace : Path.seenFrom cwd root₁ = Path.seenFrom cwd root₂ :=
    congrArg CacheKey.moduleMap hkey
  refine ⟨fun hn₁ hn₂ => Path.seenFrom_dirname_congr hn₁ hn₂ hplace, ?_, fun h => ?_⟩
  · intro hdir fs hn depth
    exact dependencyPlaces_congr hn ⟨h₁, h₂, hplace, fun _ => hdir⟩ depth
  · exact sameDirectory_of_dependencyPlaces h₁ h₂ hplace (h _ (namesFiles_probe _ _ _) 2)

/-- A path with a detour and an absolute one. -/
theorem dependencies_spelling_iff_detour :
    SameDirectory (.ofString "/w") (.ofString "./s/../m") (.ofString "/w/m") ∧
      ∀ fs, NamesFiles fs (.ofString "/w") (.ofString "./s/../m") → ∀ depth,
        dependencyPlaces fs (.ofString "/w") depth (.ofString "./s/../m") =
          dependencyPlaces fs (.ofString "/w") depth (.ofString "/w/m") := by
  have hkey : CacheKey.of (.ofString "/w") (.ofString "./s/../m") =
      CacheKey.of (.ofString "/w") (.ofString "/w/m") := by decide
  obtain ⟨hends, hiff⟩ := dependencies_spelling_iff hkey (Path.isText_ofString _)
    (Path.isText_ofString _)
  have hdir : SameDirectory (.ofString "/w") (.ofString "./s/../m") (.ofString "/w/m") :=
    hends ⟨[[0x73], Path.dotDot], [0x6d], by decide, by decide⟩
      ⟨[[0x77]], [0x6d], by decide, by decide⟩
  exact ⟨hdir, hiff.mp hdir⟩

/-- A file that refers to the place of its directory, and a file there. -/
def referenceToDirectory : FileSystem :=
  .holding ⟨0, 0, nanosPerSecond_pos⟩ ⟨9, 0, nanosPerSecond_pos⟩
    [(.ofString "/w/m", "extern module d \".\""), (.ofString "/w", "extern module e \"e\"")]

/-- Not all spellings can share an answer: the file that is referred to is looked for behind the
name of the one that refers to it, if that one is spelled with `..` behind it; and where a file is
found at the place of a directory, its own directory part depends on the spelling. -/
theorem not_dependencies_spelling :
    (CacheKey.of (.ofString "/w") (.ofString "m") =
        CacheKey.of (.ofString "/w") (.ofString "m/x/..") ∧
      dependencyPlaces danglingReference (.ofString "/w") 2 (.ofString "m") =
        some (.error (.missing (.ofString "/w/b"))) ∧
      dependencyPlaces danglingReference (.ofString "/w") 2 (.ofString "m/x/..") =
        some (.error (.missing (.ofString "/w/m/x/b")))) ∧
    CacheKey.of (.ofString "/w") (.ofString "m") =
        CacheKey.of (.ofString "/w") (.ofString "/w/m") ∧
      dependencyPlaces referenceToDirectory (.ofString "/w") 3 (.ofString "m") =
        some (.error (.missing (.ofString "/w/e"))) ∧
      dependencyPlaces referenceToDirectory (.ofString "/w") 3 (.ofString "/w/m") =
        some (.error (.missing (.ofString "/e"))) := by
  decide +kernel

end ModuleDeps
