import ModuleDeps.Proofs.Discovery.Termination
import ModuleDeps.Proofs.FileSystem.Memory
import ModuleDeps.Proofs.Path.Directory

/-!
# How often files are read

A search reads no place twice, and each place that it reads is one that it can come to
(`exists_searched`). With files in memory that does not keep it from reading a file twice, or from
going on without end: the search tells places apart by their paths, the table by their keys, and a
file name may hold backslashes. Where no two places that the search can come to have the same key,
there are no more of them with a file than the table has entries, so the search comes to an end and
reads each file at most once (`dependencies_reads_once`).
-/

namespace ModuleDeps

section

variable {fs : FileSystem} {cwd root : Path}

/-! ### What was read at the end of a search -/

theorem Asked.leadsTo {files : List ModuleMapFile} {p : Path} (h : Asked fs root files p)
    (hlocated : ∀ f ∈ files, Located fs cwd f) (hleads : ∀ f ∈ files, LeadsTo fs cwd root f.path) :
    LeadsTo fs cwd root p := by
  rcases h with ⟨-, rfl⟩ | ⟨f, hf, m, hm, name, hname, rfl⟩
  · exact .root
  · exact .reference (hleads f hf) ((hlocated f hf).absPath_eq ▸ hm) hname

/-- The search can come to the files that it finds. -/
theorem InOrder.leadsTo {files : List ModuleMapFile} (h : InOrder fs root files)
    (hlocated : ∀ f ∈ files, Located fs cwd f) : ∀ f ∈ files, LeadsTo fs cwd root f.path := by
  induction files using List.reverseRecOn with
  | nil => nofun
  | append_singleton files last ih =>
    have hfront : ∀ f ∈ files, Located fs cwd f := fun f hf =>
      hlocated f (List.mem_append_left _ hf)
    have hleads := ih (fun earlier f later heq => h earlier f (later ++ [last]) (by simp [heq]))
      hfront
    intro f hf
    rcases List.mem_append.mp hf with hf | hf
    · exact hleads f hf
    · obtain rfl := List.mem_singleton.mp hf
      exact (h files f [] rfl).leadsTo hfront hleads

/-- What was read by a search for what `root` needs, whatever it came to. -/
structure Searched (fs : FileSystem) (cwd root : Path) (d : Discovery) : Prop where
  reads_eq : Action.reads d.actions = d.collected.map (·.absPath)
  nodup : (d.collected.map (·.absPath)).Nodup
  located : ∀ f ∈ d.collected, Located fs cwd f
  leadsTo : ∀ f ∈ d.collected, LeadsTo fs cwd root f.path

theorem Progress.searched {ps : List Path} {d : Discovery} (h : Progress fs cwd root ps d) :
    Searched fs cwd root d :=
  ⟨h.reads_eq, h.visited_eq ▸ h.nodup, h.located, h.inOrder.leadsTo h.located⟩

/-- One more visit does not change that, even if it fails. -/
theorem Progress.searched_after {p : Path} {ps : List Path} {d : Discovery}
    (h : Progress fs cwd root (p :: ps) d) :
    Searched fs cwd root (d.after (ModuleDeps.visit fs cwd d.visited p)) := by
  have hv := visits_visit fs cwd d.visited p
  have hd := h.searched
  have hp := (h.asked p List.mem_cons_self).leadsTo hd.located hd.leadsTo
  generalize ModuleDeps.visit fs cwd d.visited p = v at hv
  cases hfile : v.file? with
  | none =>
    refine ⟨?_, ?_, ?_, ?_⟩
    · simp [hv.reads_actions, hfile, hd.reads_eq]
    · simpa [hfile] using hd.nodup
    · simpa [hfile] using hd.located
    · simpa [hfile] using hd.leadsTo
  | some f =>
    have hf := hv.finds hfile
    have hpath : f.path = p := hf.relPath_eq
    have hfresh : ∀ g ∈ d.collected, g.absPath ≠ f.absPath := fun g hg heq =>
      hf.fresh (h.visited_eq ▸ heq ▸ List.mem_map_of_mem hg)
    refine ⟨?_, ?_, ?_, ?_⟩
    · simp [hv.reads_actions, hfile, hd.reads_eq]
    · simpa [hfile, List.nodup_append] using ⟨hd.nodup, hfresh⟩
    · simpa [hfile, or_imp, forall_and] using ⟨hd.located, hf.located⟩
    · simpa [hfile, or_imp, forall_and, hpath] using ⟨hd.leadsTo, hp⟩

theorem exists_searched {depth : Nat} {result : Except FileError (List ModuleMapFile)}
    {actions : List Action} (h : dependencies fs cwd depth root = some (result, actions)) :
    ∃ d, Searched fs cwd root d ∧ actions = d.actions := by
  obtain ⟨r, d, hrun, -, rfl⟩ := Discovery.explores_of_dependencies h
  obtain ⟨hok, herror⟩ := hrun.invariant (Progress fs cwd root) (fun _ _ _ _ hp => hp.visit)
    (progress_start fs cwd root)
  cases r with
  | ok _ => exact ⟨d, (hok rfl).searched, rfl⟩
  | error e =>
    obtain ⟨p, ps, d₀, hp, -, rfl⟩ := herror e rfl
    exact ⟨_, hp.searched_after, rfl⟩

end

namespace MemoryFiles

variable {m : MemoryFiles} {cwd root : Path}

/-! ### Keys of the places that a search can come to -/

/-- The places that a search from `root` can come to have different keys in the table. -/
def KeysApart (m : MemoryFiles) (cwd root : Path) : Prop :=
  ∀ p q, LeadsTo m.fileSystem cwd root p → LeadsTo m.fileSystem cwd root q →
    keyOf (Path.seenFrom cwd p) = keyOf (Path.seenFrom cwd q) →
      Path.seenFrom cwd p = Path.seenFrom cwd q

/-- The paths that a search starts with, and the file names in the table, are text without
backslashes. -/
structure PlainlySpelled (m : MemoryFiles) (cwd root : Path) : Prop where
  cwd : cwd.IsPlain
  root : root.IsPlain
  names : ∀ key content mtime, (key, .file content mtime) ∈ m.entries →
    ∀ map, ModuleMap.ofText content = .ok map → ∀ name ∈ map.externFilenames,
      (Path.ofString name).IsPlain

theorem PlainlySpelled.isPlain (h : PlainlySpelled m cwd root) {p : Path}
    (hp : LeadsTo m.fileSystem cwd root p) : p.IsPlain := by
  induction hp with
  | root => exact h.root
  | reference _ hm hname ih =>
    obtain ⟨content, hread, hmap⟩ := hm
    obtain ⟨key, mtime, hmem⟩ := mem_entries_of_read hread
    exact ih.reference (h.names key content mtime hmem _ hmap _ hname)

theorem PlainlySpelled.keysApart (h : PlainlySpelled m cwd root) : KeysApart m cwd root :=
  fun _ _ hp hq hkey =>
    resolve_eq_of_keyOf_eq (h.cwd.seenFrom (h.isPlain hp)) (h.cwd.seenFrom (h.isPlain hq)) hkey

/-- There are no more places to come to than the table has entries. -/
theorem KeysApart.exists_bounds (h : KeysApart m cwd root) :
    ∃ S, Bounds m.fileSystem cwd root S ∧ S.card ≤ m.entries.length := by
  let places : Set Path := {q | (∃ p, LeadsTo m.fileSystem cwd root p ∧ Path.seenFrom cwd p = q) ∧
    (m.stat q).isValid = true}
  let keys : Finset Path := (m.entries.map (·.1)).toFinset
  have hmaps : Set.MapsTo keyOf places keys := fun q hq =>
    List.mem_toFinset.mpr (keyOf_mem_of_stat hq.2)
  have hinj : Set.InjOn keyOf places := by
    rintro _ ⟨⟨p, hp, rfl⟩, -⟩ _ ⟨⟨q, hq, rfl⟩, -⟩ hkey
    exact h p q hp hq hkey
  have hfinite : places.Finite :=
    .of_finite_image (keys.finite_toSet.subset hmaps.image_subset) hinj
  refine ⟨hfinite.toFinset, fun p hp hvalid => ?_, ?_⟩
  · exact hfinite.mem_toFinset.mpr ⟨⟨p, hp, rfl⟩, hvalid⟩
  · calc hfinite.toFinset.card
      _ ≤ keys.card :=
        Finset.card_le_card_of_injOn keyOf (by simpa using hmaps) (by simpa using hinj)
      _ ≤ (m.entries.map (·.1)).length := List.toFinset_card_le _
      _ = m.entries.length := List.length_map _

/-! ### How often files are read -/

/-- The keys of the places that a search reads. -/
def readKeys (actions : List Action) : List Path := (Action.reads actions).map keyOf

/-- A search counts once for each place that it reads, and reads files of the table only. -/
theorem readCount_after_dependencies {depth : Nat}
    {result : Except FileError (List ModuleMapFile)} {actions : List Action}
    (h : dependencies m.fileSystem cwd depth root = some (result, actions)) :
    readKeys actions ⊆ m.entries.map (·.1) ∧
      ∀ p, (m.after actions).readCount p = m.readCount p + (readKeys actions).count (keyOf p) := by
  obtain ⟨d, hd, rfl⟩ := exists_searched h
  have hstat : ∀ q ∈ Action.reads d.actions,
      (m.stat q).isValid = true ∧ (m.stat q).isDirectory = false := by
    intro q hq
    rw [hd.reads_eq] at hq
    obtain ⟨f, hf, rfl⟩ := List.mem_map.mp hq
    have hlocated := hd.located f hf
    have hstat : f.stat = m.stat f.absPath := hlocated.stat_eq
    exact ⟨hstat ▸ hlocated.isValid, hstat ▸ hlocated.isFile⟩
  constructor
  · intro k hk
    obtain ⟨q, hq, rfl⟩ := List.mem_map.mp hk
    exact keyOf_mem_of_stat (hstat q hq).1
  · exact readCount_after fun q hq => isFile_of_stat (hstat q hq).1 (hstat q hq).2

/-- With keys apart, no key is read twice. -/
theorem KeysApart.nodup_readKeys (h : KeysApart m cwd root) {depth : Nat}
    {result : Except FileError (List ModuleMapFile)} {actions : List Action}
    (hrun : dependencies m.fileSystem cwd depth root = some (result, actions)) :
    (readKeys actions).Nodup := by
  obtain ⟨d, hd, rfl⟩ := exists_searched hrun
  rw [readKeys, hd.reads_eq]
  refine hd.nodup.map_on fun x hx y hy hkey => ?_
  obtain ⟨f, hf, rfl⟩ := List.mem_map.mp hx
  obtain ⟨g, hg, rfl⟩ := List.mem_map.mp hy
  rw [(hd.located f hf).absPath_eq, (hd.located g hg).absPath_eq] at hkey ⊢
  exact h f.path g.path (hd.leadsTo f hf) (hd.leadsTo g hg) hkey

/-- **A search over files in memory comes to an end and reads each file at most once**, whatever the
table holds, if the places that it can come to have different keys, as they do where all is spelled
without backslashes. It need not follow chains that are longer than the table, and does not read
more files than the table has. -/
theorem dependencies_reads_once (m : MemoryFiles) (cwd root : Path) :
    (PlainlySpelled m cwd root → KeysApart m cwd root) ∧
    (KeysApart m cwd root → ∀ depth, m.entries.length < depth → ∃ result actions,
      dependencies m.fileSystem cwd depth root = some (result, actions) ∧
        (Action.reads actions).length ≤ m.entries.length ∧
          ∀ p, (m.after actions).readCount p ≤ m.readCount p + 1) := by
  refine ⟨fun h => h.keysApart, fun h depth hdepth => ?_⟩
  obtain ⟨S, hS, hcard⟩ := h.exists_bounds
  obtain ⟨⟨result, actions⟩, hrun⟩ :=
    Option.isSome_iff_exists.mp (dependencies_isSome hS (hcard.trans_lt hdepth))
  obtain ⟨hsub, hcount⟩ := readCount_after_dependencies hrun
  have hnodup := h.nodup_readKeys hrun
  refine ⟨result, actions, hrun, ?_, fun p => ?_⟩
  · have hlength := (List.subperm_of_subset hnodup hsub).length_le
    simpa [readKeys] using hlength
  · rw [hcount]
    exact Nat.add_le_add_left (List.nodup_iff_count_le_one.mp hnodup (keyOf p)) _

/-- Two files that name each other are read once each. -/
theorem dependencies_reads_once_cycle :
    let m : MemoryFiles := ⟨[(.ofString "/w/a", .file "extern module b \"b\"" ⟨0, 0, by decide⟩),
      (.ofString "/w/b", .file "extern module a \"./a\"" ⟨0, 0, by decide⟩)], [],
      ⟨9, 0, by decide⟩⟩
    ∃ result actions,
      dependencies m.fileSystem (.ofString "/w") 3 (.ofString "a") = some (result, actions) ∧
        (Action.reads actions).length ≤ 2 ∧
          ∀ p, (m.after actions).readCount p ≤ m.readCount p + 1 := by
  intro m
  have hplain (s : String) (h : Path.backslash ∉ (Path.ofString s).bytes) :
      (Path.ofString s).IsPlain := ⟨Path.isText_ofString s, h⟩
  have hm : PlainlySpelled m (.ofString "/w") (.ofString "a") := by
    refine ⟨hplain _ (by decide), hplain _ (by decide), fun key content mtime hmem map hmap => ?_⟩
    simp only [m, List.mem_cons, Prod.mk.injEq, MemoryEntry.file.injEq, List.not_mem_nil,
      or_false] at hmem
    rcases hmem with ⟨-, rfl, -⟩ | ⟨-, rfl, -⟩
    · have hnames : map.externFilenames = ["b"] := externFilenames_eq hmap (by decide +kernel)
      rw [hnames, List.forall_mem_singleton]
      exact hplain _ (by decide)
    · have hnames : map.externFilenames = ["./a"] := externFilenames_eq hmap (by decide +kernel)
      rw [hnames, List.forall_mem_singleton]
      exact hplain _ (by decide)
  obtain ⟨hapart, honce⟩ := dependencies_reads_once m (.ofString "/w") (.ofString "a")
  exact honce (hapart hm) 3 (by decide)

/-! ### A search without end -/

/-- A file whose only reference leads back to itself in the table, and on to a new place each time
that it is followed. -/
def selfNaming : MemoryFiles :=
  ⟨[(.ofString "/w/a", .file "extern module a \"\\/a\"" ⟨0, 0, nanosPerSecond_pos⟩)], [],
    ⟨9, 0, nanosPerSecond_pos⟩⟩

/-- The names of the path that the search has come to after `n` references. -/
def detour (n : Nat) : List Name := List.replicate n [Path.backslash] ++ [[0x61]]

/-- The place that the search has come to after `n` references. -/
def detourPlace (n : Nat) : Path := ⟨Path.slash :: Path.joinNames ([0x77] :: detour n)⟩

theorem eq_of_mem_detour {n : Nat} {name : Name} (h : name ∈ detour n) :
    name = [Path.backslash] ∨ name = [0x61] :=
  (List.mem_append.mp h).imp List.eq_of_mem_replicate List.mem_singleton.mp

theorem isName_of_mem_detour {n : Nat} {name : Name} (h : name ∈ detour n) : Path.IsName name := by
  rcases eq_of_mem_detour h with rfl | rfl
  · exact ⟨by decide, by decide, by decide⟩
  · exact ⟨by decide, by decide, by decide⟩

theorem ne_dotDot_of_mem_detour {n : Nat} {name : Name} (h : name ∈ detour n) :
    name ≠ Path.dotDot := by
  rcases eq_of_mem_detour h with rfl | rfl
  · decide
  · decide

theorem detourPlace_injective {m n : Nat} (h : detourPlace m = detourPlace n) : m = n := by
  have hnames (k : Nat) : (detourPlace k).names = [0x77] :: detour k := by
    rw [detourPlace, Path.names_cons_slash, Path.names_joinNames]
    exact List.forall_mem_cons.mpr
      ⟨⟨by decide, by decide, by decide⟩, fun _ => isName_of_mem_detour⟩
  have hlength := congrArg (fun p => p.names.length) h
  simpa [hnames, detour] using hlength

/-- A path of the search, as far as it matters. -/
structure Detour (n : Nat) (p : Path) : Prop where
  isText : p.IsText
  isRelative : p.isAbsolute = false
  names : p.names = detour n

theorem Detour.reference {n : Nat} {p : Path} (h : Detour n p) :
    Detour (n + 1) (p.reference "\\/a") where
  isText := Path.isText_reference h.isText _
  isRelative := by
    have hne : p.names ≠ [] := by simp [h.names, detour]
    rw [Path.reference, Path.isAbsolute_join, Path.isAbsolute_dirname hne, h.isRelative]
    decide
  names := by
    have hname : (Path.ofString "\\/a").names = [[Path.backslash], [0x61]] := by decide
    rw [Path.reference, Path.names_join (by decide), Path.names_dirname, h.names, hname, detour,
      List.dropLast_concat, detour, List.replicate_succ']
    simp

theorem Detour.seenFrom {n : Nat} {p : Path} (h : Detour n p) :
    Path.seenFrom (.ofString "/w") p = detourPlace n := by
  have habs : ((Path.ofString "/w").join p).isAbsolute = true := by
    rw [Path.isAbsolute_join, h.isRelative]
    decide
  have hcwd : (Path.ofString "/w").resolvedNames = [[0x77]] := by decide
  have hnames : ((Path.ofString "/w").join p).resolvedNames = [0x77] :: detour n := by
    rw [Path.resolvedNames_join h.isRelative, h.names, hcwd,
      Path.foldl_step_of_ne fun _ => ne_dotDot_of_mem_detour]
    simp
  rw [Path.seenFrom, Path.resolve, if_pos habs, hnames, detourPlace]

/-- The text of what `detourPlace` puts behind the directory. -/
def detourText : Nat → List Char
  | 0 => ['/', 'a']
  | n + 1 => '/' :: '\\' :: detourText n

theorem detourPlace_eq (n : Nat) :
    detourPlace n = .ofString (.ofList ('/' :: 'w' :: detourText n)) := by
  have htext : (detourText n).flatMap String.utf8EncodeChar =
      Path.slash :: Path.joinNames (detour n) := by
    induction n with
    | zero => decide
    | succ n ih =>
      have hsplit : Path.joinNames (detour (n + 1)) =
          Path.backslash :: Path.slash :: Path.joinNames (detour n) := by
        cases n <;> rfl
      rw [hsplit, ← ih]
      rfl
  have hsplit : Path.joinNames ([0x77] :: detour n) =
      0x77 :: Path.slash :: Path.joinNames (detour n) := by
    cases n <;> rfl
  rw [detourPlace, hsplit, ← htext, Path.ofString, Utf8.encode_ofList]
  rfl

/-- With slashes for backslashes, only the last name is left. -/
theorem names_slashed_detourText (n : Nat) :
    Path.names ⟨((detourText n).map fun c => if c = '\\' then '/' else c).flatMap
      String.utf8EncodeChar⟩ = [[0x61]] := by
  induction n with
  | zero => decide
  | succ n ih =>
    refine (Path.names_cons_slash _).trans ((Path.names_cons_slash _).trans ?_)
    exact ih

/-- All places of the search have the key of the same file. -/
theorem keyOf_detourPlace (n : Nat) : keyOf (detourPlace n) = .ofString "/w/a" := by
  have hmap (cs : List Char) (f : Char → Char) : (String.ofList cs).map f = .ofList (cs.map f) := by
    rw [← String.toList_inj, String.toList_map, String.toList_ofList, String.toList_ofList]
  let slashed := (detourText n).map fun c => if c = '\\' then '/' else c
  have hbytes : Path.ofString (.ofList ('/' :: 'w' :: slashed)) =
      ⟨Path.slash :: 0x77 :: slashed.flatMap String.utf8EncodeChar⟩ := by
    rw [Path.ofString, Utf8.encode_ofList]
    rfl
  have hnames : Path.names ⟨0x77 :: slashed.flatMap String.utf8EncodeChar⟩ = [[0x77], [0x61]] := by
    have hlast := names_slashed_detourText n
    obtain ⟨rest, hrest⟩ : ∃ rest, slashed.flatMap String.utf8EncodeChar = Path.slash :: rest := by
      cases n <;> exact ⟨_, rfl⟩
    rw [show (detourText n).map _ = slashed from rfl, hrest, Path.names_cons_slash] at hlast
    rw [hrest]
    exact (Path.names_append_slash [0x77] rest).trans (by rw [hlast]; rfl)
  rw [detourPlace_eq, keyOf, Path.display_ofString, hmap]
  refine (congrArg Path.tidy hbytes).trans ?_
  rw [Path.tidy, Path.anchor_cons_slash, Path.names_cons_slash, hnames]
  decide

/-- In each place, the file is found again, and leads on to the next one. -/
theorem visit_selfNaming {n : Nat} {p : Path} {visited : List Path} (hp : Detour n p)
    (hfresh : detourPlace n ∉ visited) :
    ∃ f : ModuleMapFile, f.absPath = detourPlace n ∧
      visit selfNaming.fileSystem (.ofString "/w") visited p =
        ⟨.ok [p.reference "\\/a"], some f, readActions f⟩ := by
  have hentry : selfNaming.entry? (detourPlace n) =
      some (.file "extern module a \"\\/a\"" ⟨0, 0, by decide⟩) := by
    unfold entry?
    rw [keyOf_detourPlace]
    decide
  have hvalid : (selfNaming.fileSystem.stat (detourPlace n)).isValid = true := by
    simp only [fileSystem, stat, hentry]
    rfl
  have hfile : (selfNaming.fileSystem.stat (detourPlace n)).isDirectory = false := by
    simp only [fileSystem, stat, hentry]
  obtain ⟨map, hmap, hnames⟩ : ∃ map, ModuleMap.ofText "extern module a \"\\/a\"" = .ok map ∧
      map.externFilenames = ["\\/a"] :=
    exists_ofText (by decide +kernel)
  have hread : readModuleMap selfNaming.fileSystem (detourPlace n) = .ok map :=
    readModuleMap_eq_ok_iff.mpr ⟨_, by simp only [fileSystem, read, hentry], hmap⟩
  obtain ⟨s, hs⟩ := Path.isText_iff_exists.mp hp.isText
  refine ⟨⟨s, detourPlace n, selfNaming.fileSystem.stat (detourPlace n)⟩, rfl, ?_⟩
  simp [visit, hs, hp.seenFrom, hfresh, hread, hnames, hvalid, hfile, readActions]

/-- The search goes on to new places for as long as it may. -/
theorem add_selfNaming {depth n : Nat} {p : Path} {d : Discovery} (hp : Detour n p)
    (hfresh : ∀ k, n ≤ k → detourPlace k ∉ d.visited) :
    Discovery.add selfNaming.fileSystem (.ofString "/w") depth p d = none := by
  induction depth generalizing n p d with
  | zero => rfl
  | succ depth ih =>
    obtain ⟨f, hf, hvisit⟩ := visit_selfNaming hp (hfresh n le_rfl)
    simp only [Discovery.add, hvisit, Discovery.addEach]
    rw [ih hp.reference fun k hk => ?_]
    have hne : detourPlace k ≠ detourPlace n := fun heq => by
      have := detourPlace_injective heq
      omega
    simpa [hf] using ⟨hfresh k (by omega), hne⟩

/-- A file that refers to another one twice, the second time with a backslash. -/
def twiceNamed : MemoryFiles :=
  ⟨[(.ofString "/w/a", .file "extern module b \"s/b\" extern module c \"s\\b\""
      ⟨0, 0, nanosPerSecond_pos⟩),
    (.ofString "/w/s/b", .file "" ⟨0, 0, nanosPerSecond_pos⟩)], [], ⟨9, 0, nanosPerSecond_pos⟩⟩

/-- Not all searches over files in memory read each file at most once, or come to an end: with a
backslash for a slash the first one comes to a file twice, and the second one always comes to a new
place. -/
theorem not_dependencies_reads_once :
    (∃ result actions, dependencies twiceNamed.fileSystem (.ofString "/w") 2 (.ofString "a") =
        some (result, actions) ∧
      (twiceNamed.after actions).readCount (.ofString "/w/s/b") =
        twiceNamed.readCount (.ofString "/w/s/b") + 2) ∧
    ∀ depth, dependencies selfNaming.fileSystem (.ofString "/w") depth (.ofString "a") = none := by
  have htwice : (dependencies twiceNamed.fileSystem (.ofString "/w") 2 (.ofString "a")).map
      (fun out => Action.reads out.2) =
        some [.ofString "/w/a", .ofString "/w/s/b", .ofString "/w/s\\b"] := by
    decide +kernel
  obtain ⟨⟨result, actions⟩, hrun, hreads⟩ := Option.map_eq_some_iff.mp htwice
  refine ⟨⟨result, actions, hrun, ?_⟩, fun depth => ?_⟩
  · have hroot : keyOf (.ofString "/w/a") = .ofString "/w/a" := by decide +kernel
    have hslash : keyOf (.ofString "/w/s/b") = .ofString "/w/s/b" := by decide +kernel
    have hbackslash : keyOf (.ofString "/w/s\\b") = .ofString "/w/s/b" := by decide +kernel
    have hne : Path.ofString "/w/a" ≠ .ofString "/w/s/b" := by decide
    rw [(readCount_after_dependencies hrun).2, readKeys, hreads]
    simp [hroot, hslash, hbackslash, hne]
  · have hroot : Detour 0 (.ofString "a") := ⟨Path.isText_ofString _, by decide, by decide⟩
    rw [dependencies, add_selfNaming hroot (by simp)]
    rfl

end MemoryFiles

end ModuleDeps
