import ModuleDeps.Proofs.Cache.Answer
import ModuleDeps.Proofs.Discovery.Revalidation
import ModuleDeps.Proofs.Discovery.Termination
import ModuleDeps.Proofs.FileSystem.Staleness

/-!
# Answers of a cache are those of a search

However a cache came to its table, and whatever happened to the file system meanwhile, it answers
each call as a search at that moment would (`run_eq_uncached`). This needs file systems that are
honest about modification times (`HonestTimes`): a file that was not modified lately, and looks the
same later, has the same content then.

The invariant of a run is that each kept answer was found by an earlier call under the same key, in
files that could be trusted then (`Remembers`). An answer is given from the table only if its files
look as they did, and a search depends on the files that it lists alone, so a search now would find
the same.
-/

namespace ModuleDeps

/-! ### Honest times -/

/-- A file that was seen in `fs₁`, more than `slack` after it was modified, and looks the same in
`fs₂`, has the same content in both. -/
def HonestTimes (slack : Span) (fs₁ fs₂ : FileSystem) : Prop :=
  ∀ p t, (fs₁.stat p).sameSnapshot (fs₂.stat p) = true → (fs₁.stat p).mtime = some t →
    t.nanosSinceEpoch + slack.totalNanos < (fs₁.stat p).takenAt.nanosSinceEpoch →
    fs₁.read p = fs₂.read p

theorem FileStat.sameSnapshot_comm {s t : FileStat} (h : s.sameSnapshot t = true) :
    t.sameSnapshot s = true := by
  simp only [sameSnapshot, Bool.and_eq_true, beq_iff_eq] at h ⊢
  obtain ⟨⟨⟨h₁, h₂⟩, h₃⟩, h₄⟩ := h
  exact ⟨⟨⟨h₁.symm, h₂.symm⟩, h₃.symm⟩, h₄.symm⟩

/-- A file that could be trusted and looks as it did is the same file. -/
theorem HonestTimes.agreeAt {slack : Span} {fs₁ fs₂ : FileSystem} (h : HonestTimes slack fs₁ fs₂)
    {cwd : Path} {f : ModuleMapFile} (hf : Located fs₁ cwd f) (hs : f.stat.canBeStale slack = false)
    (hd : Cache.mayDiffer fs₂ slack f = false) : AgreeAt fs₁ fs₂ f.absPath := by
  simp only [Cache.mayDiffer, FileStat.canBeNewerThan, Bool.or_eq_false_iff,
    Bool.not_eq_false'] at hd
  obtain ⟨hvalid, -, hsame⟩ := hd
  have hsame := FileStat.sameSnapshot_comm hsame
  obtain ⟨t, ht, hlt⟩ := lt_of_withinSlack_eq_false hs
  refine ⟨?_, ?_, ?_⟩
  · rw [← hf.stat_eq, hf.isValid, hvalid]
  · rw [← hf.stat_eq]
    simp only [FileStat.sameSnapshot, Bool.and_eq_true, beq_iff_eq] at hsame
    exact hsame.1.1.2
  · rw [hf.stat_eq] at hsame ht hlt
    exact h f.absPath t hsame ht hlt

/-! ### Searches that find the same -/

theorem seenFrom_congr {cwd₁ cwd₂ root₁ root₂ : Path} (h : CacheKey.of cwd₁ root₁ = .of cwd₂ root₂)
    (p : Path) :
    Path.seenFrom cwd₁ p = Path.seenFrom cwd₂ p :=
  Path.resolve_join_congr (congrArg CacheKey.cwd h) p

theorem relPaths_congr {fs gs : List ModuleMapFile} (h : fs.map (·.names) = gs.map (·.names)) :
    relPaths fs = relPaths gs := by
  have := congrArg (List.map Prod.fst) h
  simpa [relPaths, ModuleMapFile.names, Function.comp_def] using this

/-- A search finds the same files where those that it found are the same. -/
theorem dependencies_agree {fs₁ fs₂ : FileSystem} {cwd₁ cwd₂ root : Path} {depth₁ depth₂ : Nat}
    {files : List ModuleMapFile} {result : Except FileError (List ModuleMapFile)}
    {actions₁ actions₂ : List Action} (hcwd : ∀ p, Path.seenFrom cwd₁ p = Path.seenFrom cwd₂ p)
    (h₁ : dependencies fs₁ cwd₁ depth₁ root = some (.ok files, actions₁))
    (hagree : ∀ f ∈ files, AgreeAt fs₁ fs₂ f.absPath)
    (h₂ : dependencies fs₂ cwd₂ depth₂ root = some (result, actions₂)) :
    ∃ files', result = .ok files' ∧ relPaths files' = relPaths files := by
  obtain ⟨d, hrun, hnames⟩ := exists_explores_agree hcwd h₁ hagree
  obtain ⟨r, d₂, hrun₂, rfl, -⟩ := Discovery.explores_of_dependencies h₂
  obtain ⟨rfl, rfl⟩ := hrun₂.unique hrun
  exact ⟨d₂.collected, rfl, relPaths_congr hnames⟩

/-! ### Runs -/

/-- A call of a cache: what the file system is at that moment, and which module map is asked for. -/
structure Call where
  /-- The file system. -/
  fs : FileSystem
  /-- The working directory. -/
  cwd : Path
  /-- The path of the module map. -/
  root : Path

/-- What the call is answered under. -/
def Call.key (k : Call) : CacheKey := .of k.cwd k.root

/-- The answer of a search, without a cache. -/
def Call.uncached (k : Call) (depth : Nat) : Option (Except Unresolvable (List String)) :=
  (dependencies k.fs k.cwd depth k.root).map fun out =>
    (out.1.map relPaths).mapError (⟨k.key.moduleMap, ·⟩)

namespace Cache

/-- The answers to calls that are made one after the other, and the cache after them. -/
def run (depth : Nat) : Cache → List Call →
    Option (List (Except Unresolvable (List String)) × Cache)
  | c, [] => some ([], c)
  | c, k :: ks => do
    let (answer, c, _) ← c.resolve k.fs k.cwd depth k.root
    let (answers, c) ← run depth c ks
    some (answer :: answers, c)

/-- Each kept answer was found by one of the calls, under its key and in files that could be
trusted. -/
def Remembers (depth : Nat) (calls : List Call) (c : Cache) : Prop :=
  ∀ key files, (key, files) ∈ c.entries → ∃ k ∈ calls, k.key = key ∧
    (∃ actions, dependencies k.fs k.cwd depth k.root = some (.ok files, actions)) ∧
    ∀ f ∈ files, f.stat.canBeStale c.config.staleSlack = false

variable {depth : Nat} {past : List Call} {c c' : Cache} {k : Call}
  {answer : Except Unresolvable (List String)} {actions : List Action}

theorem Answers.config_eq (h : Answers c k.fs k.cwd depth k.root answer c' actions) :
    c'.config = c.config := by
  cases h <;> rfl

theorem Remembers.mono (h : Remembers depth past c) (k : Call) (hentries : c'.entries ⊆ c.entries)
    (hconfig : c'.config = c.config) : Remembers depth (past ++ [k]) c' := by
  intro key files hmem
  obtain ⟨j, hj, hrest⟩ := h key files (hentries hmem)
  rw [hconfig]
  exact ⟨j, List.mem_append_left [k] hj, hrest⟩

/-- A call keeps the invariant. -/
theorem Remembers.concat (h : Remembers depth past c)
    (ha : Answers c k.fs k.cwd depth k.root answer c' actions) :
    Remembers depth (past ++ [k]) c' := by
  cases ha with
  | hit => exact h.mono k (List.Subset.refl _) rfl
  | failed => exact h.mono k (List.Subset.refl _) rfl
  | untrusted => exact h.mono k (List.Subset.refl _) rfl
  | kept hm hd hs =>
    intro key files hmem
    rcases mem_insert hmem with heq | hmem
    · obtain ⟨rfl, rfl⟩ := Prod.mk.inj heq
      exact ⟨k, List.mem_append_right past List.mem_cons_self, rfl, ⟨_, hd⟩, hs⟩
    · exact h.mono k (List.Subset.refl _) rfl key files hmem

/-- A call is answered as a search would answer it. -/
theorem Remembers.answer_eq (h : Remembers depth past c)
    (ha : Answers c k.fs k.cwd depth k.root answer c' actions)
    (hhonest : ∀ j ∈ past, HonestTimes c.config.staleSlack j.fs k.fs)
    (hroot : ∀ j ∈ past, j.key = k.key → j.root = k.root)
    (hends : (dependencies k.fs k.cwd depth k.root).isSome = true) :
    k.uncached depth = some answer := by
  unfold Call.uncached
  cases ha with
  | failed hm hd => rw [hd]; rfl
  | untrusted hm hd => rw [hd]; rfl
  | kept hm hd => rw [hd]; rfl
  | @hit files _ hl =>
    obtain ⟨hfind, hsame⟩ := of_lookup_hit hl
    obtain ⟨j, hj, hkey, ⟨actions₁, h₁⟩, htrusted⟩ := h _ _ (Table.mem_entries_of_find? hfind)
    obtain ⟨⟨result, actions₂⟩, h₂⟩ := Option.isSome_iff_exists.mp hends
    rw [hroot j hj hkey] at h₁
    have hlocated := located_of_dependencies h₁
    have hagree : ∀ f ∈ files, AgreeAt j.fs k.fs f.absPath := fun f hf =>
      (hhonest j hj).agreeAt (hlocated f hf) (htrusted f hf) (hsame f hf)
    obtain ⟨files', rfl, heq⟩ := dependencies_agree (seenFrom_congr hkey) h₁ hagree h₂
    rw [h₂, ← heq]
    rfl

/-- A run goes on to be answered as searches would answer it. -/
theorem Remembers.run {calls : List Call} (h : Remembers depth past c)
    (hhonest : (past ++ calls).Pairwise fun j k => HonestTimes c.config.staleSlack j.fs k.fs)
    (hroot : ∀ j ∈ past ++ calls, ∀ k ∈ past ++ calls, j.key = k.key → j.root = k.root)
    (hends : ∀ k ∈ calls, (dependencies k.fs k.cwd depth k.root).isSome = true) :
    ∃ answers c', c.run depth calls = some (answers, c') ∧
      calls.map (·.uncached depth) = answers.map some := by
  induction calls generalizing past c with
  | nil => exact ⟨[], c, rfl, rfl⟩
  | cons k calls ih =>
    obtain ⟨⟨answer, c₁, actions⟩, hc⟩ :=
      Option.isSome_iff_exists.mp (c.resolve_isSome (hends k List.mem_cons_self))
    have ha := answers_of_resolve hc
    have hanswer : k.uncached depth = some answer := by
      refine h.answer_eq ha (fun j hj => ?_) (fun j hj => ?_) (hends k List.mem_cons_self)
      · exact (List.pairwise_append.mp hhonest).2.2 j hj k List.mem_cons_self
      · exact hroot j (List.mem_append_left _ hj) k (List.mem_append_right _ List.mem_cons_self)
    rw [List.append_cons] at hhonest hroot
    obtain ⟨answers, c', hrun, hanswers⟩ := ih (h.concat ha) (ha.config_eq ▸ hhonest) hroot
      fun j hj => hends j (List.mem_cons_of_mem k hj)
    refine ⟨answer :: answers, c', ?_, ?_⟩
    · simp [Cache.run, hc, hrun]
    · rw [List.map_cons, List.map_cons, hanswer, hanswers]

theorem exists_depth {calls : List Call} (h : ∀ k ∈ calls, k.fs.places.Finite) :
    ∃ N, ∀ depth, N ≤ depth →
      ∀ k ∈ calls, (dependencies k.fs k.cwd depth k.root).isSome = true := by
  induction calls with
  | nil => exact ⟨0, fun _ _ => nofun⟩
  | cons k calls ih =>
    obtain ⟨N₁, h₁⟩ := exists_dependencies (h k List.mem_cons_self)
    obtain ⟨N₂, h₂⟩ := ih fun j hj => h j (List.mem_cons_of_mem k hj)
    refine ⟨max N₁ N₂, fun depth hd j hj => ?_⟩
    rcases List.mem_cons.mp hj with rfl | hj
    · exact h₁ depth (le_of_max_le_left hd) _ _
    · exact h₂ depth (le_of_max_le_right hd) j hj

/-- **A cache answers as searches would**: over file systems that hold finitely many files and are
honest about their times, if calls with the same key spell their module map alike, then each call of
a run is answered as a search would answer it at that moment, in success and in failure. -/
theorem run_eq_uncached (config : Config) (calls : List Call)
    (hfinite : ∀ k ∈ calls, k.fs.places.Finite)
    (hhonest : calls.Pairwise fun j k => HonestTimes config.staleSlack j.fs k.fs)
    (hroot : ∀ j ∈ calls, ∀ k ∈ calls, j.key = k.key → j.root = k.root) :
    ∃ N, ∀ depth, N ≤ depth →
      ∃ answers c, ({ config } : Cache).run depth calls = some (answers, c) ∧
      calls.map (·.uncached depth) = answers.map some := by
  obtain ⟨N, hN⟩ := exists_depth hfinite
  refine ⟨N, fun depth hd => ?_⟩
  have hempty : Remembers depth [] { config } := fun _ _ => nofun
  exact hempty.run hhonest hroot (hN depth hd)

/-! ### A run with a hit and an edit -/

theorem honestTimes_holding {mtime mtime' now now' : Moment} {files files' : List (Path × String)}
    (slack : Span) (h : mtime = mtime' → files = files') :
    HonestTimes slack (.holding mtime now files) (.holding mtime' now' files') := by
  intro p t hsame ht _
  cases hl : files.lookup p with
  | none => simp [FileSystem.holding, hl, FileStat.missing] at ht
  | some content =>
    cases hl' : files'.lookup p with
    | none => simp [FileSystem.holding, hl, hl', FileStat.sameSnapshot, FileStat.missing] at hsame
    | some content' =>
      have heq : mtime = mtime' := by
        simp only [FileSystem.holding, hl, hl', FileStat.sameSnapshot, Option.elim_some,
          Bool.and_eq_true, beq_iff_eq, Option.some.injEq] at hsame
        exact hsame.2
      simp [FileSystem.holding, h heq]

/-- The second call is answered from the table; before the third one the file was broken. -/
theorem run_eq_uncached_edited :
    let kept : List (Path × String) := [(.ofString "/w/a", "module a { }")]
    let calls : List Call := [
      ⟨.holding ⟨0, 0, by decide⟩ ⟨9, 0, by decide⟩ kept, .ofString "/w", .ofString "a"⟩,
      ⟨.holding ⟨0, 0, by decide⟩ ⟨10, 0, by decide⟩ kept, .ofString "/w/.", .ofString "a"⟩,
      ⟨.holding ⟨11, 0, by decide⟩ ⟨12, 0, by decide⟩ [(.ofString "/w/a", "module a \x7b ")],
        .ofString "/w", .ofString "a"⟩]
    (({ config := {} } : Cache).run 1 calls).map (fun out =>
      (out.1.map (·.toOption), out.2.stats.hits)) =
        some ([some ["a"], some ["a"], none], 1) ∧
      ∃ N, ∀ depth, N ≤ depth →
        ∃ answers c, ({ config := {} } : Cache).run depth calls = some (answers, c) ∧
        calls.map (·.uncached depth) = answers.map some := by
  intro kept calls
  refine ⟨by decide +kernel, run_eq_uncached {} calls ?_ ?_ ?_⟩
  · intro k hk
    simp only [calls, List.mem_cons, List.not_mem_nil, or_false] at hk
    rcases hk with rfl | rfl | rfl
    · exact finite_places_holding _ _ _
    · exact finite_places_holding _ _ _
    · exact finite_places_holding _ _ _
  · simp only [calls, List.pairwise_cons, List.mem_cons, List.not_mem_nil, or_false,
      forall_eq_or_imp, forall_eq, List.Pairwise.nil, and_true, false_imp_iff, implies_true]
    refine ⟨⟨?_, ?_⟩, ?_⟩
    · exact honestTimes_holding _ fun _ => rfl
    · exact honestTimes_holding _ (by decide)
    · exact honestTimes_holding _ (by decide)
  · intro j hj k hk _
    simp only [calls, List.mem_cons, List.not_mem_nil, or_false] at hj hk
    rcases hj with rfl | rfl | rfl <;> rcases hk with rfl | rfl | rfl <;> rfl

end Cache

end ModuleDeps
