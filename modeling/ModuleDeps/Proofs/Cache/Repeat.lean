import ModuleDeps.Proofs.Cache.Eviction

/-!
# Answers that are given again

A kept answer is given again to a later call as long as its files look as they did and nothing took
it out of the table (`resolve_again`).

Two things come together here. A file that could be trusted when it was looked up can be trusted at
any later moment (`withinSlack_eq_false_mono`), so a file that looks the same cannot differ. And the
call that keeps an answer has its key as the newest one in the queue, or finds it there at its turn,
so it does not drop it again (`Balanced.key_mem_of_kept`).
-/

namespace ModuleDeps

namespace Cache

variable {depth calls added : Nat} {c c' : Cache} {k : Call} {key : CacheKey} {rs : List Request}
  {fs : FileSystem} {cwd root : Path} {slack : Span} {files : List ModuleMapFile}
  {answer : Except Unresolvable (List String)} {actions found : List Action}

/-! ### Files that look the same -/

/-- In `fs`, which is not earlier, the files look as they did. -/
def LookSame (fs : FileSystem) (files : List ModuleMapFile) : Prop :=
  ∀ f ∈ files, (fs.stat f.absPath).sameSnapshot f.stat = true ∧
    f.stat.takenAt ≤ (fs.stat f.absPath).takenAt

instance (fs : FileSystem) (files : List ModuleMapFile) : Decidable (LookSame fs files) :=
  inferInstanceAs (Decidable (∀ f ∈ files, _))

/-- Files that could be trusted and look as they did cannot differ. -/
theorem LookSame.mayDiffer_eq_false (h : LookSame fs files)
    (hvalid : ∀ f ∈ files, f.stat.isValid = true)
    (htrusted : ∀ f ∈ files, f.stat.canBeStale slack = false) :
    ∀ f ∈ files, mayDiffer fs slack f = false := by
  intro f hf
  obtain ⟨hsame, hlater⟩ := h f hf
  have hvalid' : (fs.stat f.absPath).isValid = true := by
    rw [← hvalid f hf]
    simp only [FileStat.sameSnapshot, Bool.and_eq_true, beq_iff_eq] at hsame
    obtain ⟨⟨⟨hpresent, -⟩, -⟩, hmtime⟩ := hsame
    rw [FileStat.isValid, FileStat.isValid, hpresent, hmtime]
  have hslack : withinSlack f.stat.mtime slack (fs.stat f.absPath).takenAt = false :=
    withinSlack_eq_false_mono (htrusted f hf) hlater
  simp only [mayDiffer, FileStat.canBeNewerThan, hvalid', hslack, hsame]
  rfl

/-- Files that do not differ are looked up once each. -/
theorem revalidate_of_same (h : ∀ f ∈ files, mayDiffer fs slack f = false) :
    revalidate fs slack files = (none, files.map fun f => .stat f.absPath) := by
  induction files with
  | nil => rfl
  | cons f files ih =>
    obtain ⟨hf, hfiles⟩ := List.forall_mem_cons.mp h
    rw [revalidate, hf, ih hfiles]
    rfl

theorem reads_stats (files : List ModuleMapFile) :
    Action.reads (files.map fun f => .stat f.absPath) = [] := by
  rw [Action.reads, List.filterMap_map, List.filterMap_eq_nil_iff]
  exact fun _ _ => rfl

/-- An answer of the table whose files do not differ is given. -/
theorem resolve_of_same (hfind : c.table.find? (.of cwd root) = some files)
    (h : ∀ f ∈ files, mayDiffer fs c.config.staleSlack f = false) (depth : Nat) :
    ∃ actions, c.resolve fs cwd depth root = some (.ok (relPaths files), c.countHit, actions) ∧
      Action.reads actions = [] := by
  refine ⟨(files.map fun f => .stat f.absPath) ++ [.log (.hit (CacheKey.of cwd root).moduleMap)],
    ?_, ?_⟩
  · rw [resolve, lookup, hfind]
    simp only [revalidate_of_same h]
    rfl
  · rw [Action.reads_append, reads_stats]
    rfl

/-! ### What the table keeps -/

/-- A call leaves the answer under another key as it is, unless it drops the key. -/
theorem Balanced.find?_answers (h : c.Balanced calls added)
    (ha : Answers c k.fs k.cwd depth k.root answer c' actions) (hkey : k.key ≠ key)
    (hleft : key ∈ c'.table.keys) : c'.table.find? key = c.table.find? key := by
  cases ha with
  | hit => rfl
  | failed => rfl
  | untrusted => rfl
  | @kept files =>
    calc (c.countMiss.insert k.key files).1.table.find? key
        = (c.table.insert k.key files).find? key := (h.inStep.insert k.key files).find?_evict hleft
      _ = c.table.find? key := h.inStep.find?_insert_of_ne hkey.symm files

/-- Calls with other keys leave the answer under a key as it is, unless one of them drops the key. -/
theorem Balanced.find?_serveAll (h : c.Balanced calls added) (hrun : c.serveAll depth rs = some c')
    (hothers : ∀ r ∈ rs, r.key ≠ key) (hleft : key ∈ c'.table.keys) :
    c'.table.find? key = c.table.find? key := by
  induction rs generalizing c calls added with
  | nil =>
    cases hrun
    rfl
  | cons r rs ih =>
    obtain ⟨c₁, hserve, hrun⟩ := Option.bind_eq_some_iff.mp hrun
    obtain ⟨answer, actions, ha⟩ := answers_of_serve hserve
    obtain ⟨hr, hrs⟩ := List.forall_mem_cons.mp hothers
    have hrest := ih (h.answers (k := r.toCall) ha) hrun hrs
    have hleft₁ : key ∈ c₁.table.keys := by
      rw [← Table.isSome_find?_iff, ← hrest, Table.isSome_find?_iff]
      exact hleft
    rw [hrest, h.find?_answers (k := r.toCall) ha hr hleft₁]

/-- A call has its key in the table if it keeps its answer. -/
theorem Balanced.key_mem_of_kept (h : c.Balanced calls added) (hroom : 0 < c.config.maxEntries)
    (ha : Answers c k.fs k.cwd depth k.root answer c' actions)
    (hd : dependencies k.fs k.cwd depth k.root = some (.ok files, found))
    (htrusted : ∀ f ∈ files, f.stat.canBeStale c.config.staleSlack = false) :
    k.key ∈ c'.table.keys := by
  by_cases hkey : k.key ∈ c.table.keys
  · obtain ⟨old, hfind⟩ := Option.isSome_iff_exists.mp (Table.isSome_find?_iff.mpr hkey)
    rw [← (h.answers ha).mem_order_iff, h.order_answers ha,
      h.rtake_order_append_none (adds_of_find?_eq_some hfind), h.mem_order_iff]
    exact hkey
  · have hadds : c.adds depth k = true := by
      rw [adds_of_trusted hd htrusted, Table.find?_eq_none_iff.mpr hkey]
      rfl
    exact ((h.adds_iff hroom ha).mp hadds).2

/-- A call that misses and finds files that can be trusted has them in the table. -/
theorem Balanced.find?_of_miss {paths : List String} (h : c.Balanced calls added)
    (hroom : 0 < c.config.maxEntries)
    (ha : Answers c k.fs k.cwd depth k.root (.ok paths) c' actions)
    (hmiss : c'.stats.misses = c.stats.misses + 1)
    (hd : dependencies k.fs k.cwd depth k.root = some (.ok files, found))
    (htrusted : ∀ f ∈ files, f.stat.canBeStale c.config.staleSlack = false) :
    paths = relPaths files ∧ c'.table.find? k.key = some files := by
  have hkey := h.key_mem_of_kept hroom ha hd htrusted
  cases ha with
  | hit =>
    have hnone : (0 : UInt64) = 1 :=
      (UInt64.add_right_inj c.stats.misses).mp ((UInt64.add_zero _).trans hmiss)
    cases hnone
  | untrusted _ hd' hs =>
    obtain ⟨rfl, -⟩ : files = _ ∧ found = _ := by simpa [hd] using hd'
    have hstale := List.find?_some hs
    rw [htrusted _ (List.mem_of_find?_eq_some hs)] at hstale
    cases hstale
  | kept _ hd' =>
    obtain ⟨rfl, -⟩ : files = _ ∧ found = _ := by simpa [hd] using hd'
    refine ⟨rfl, ?_⟩
    calc (c.countMiss.insert k.key files).1.table.find? k.key
        = (c.table.insert k.key files).find? k.key :=
          (h.inStep.insert k.key files).find?_evict hkey
      _ = some files := h.inStep.find?_insert_self k.key files

/-- **A kept answer is given again**: in a cache with room for an answer, a call that misses and
finds files of which each can be trusted has its answer in the table then. After any other requests,
if none of them had the same key and the key was not dropped, and the files look as they did, the
same call is answered from the table, with the same paths in the same order. No file is read, and
only the hits are counted. -/
theorem resolve_again {config : Config} {before : List Request} {c₁ : Cache} {paths : List String}
    (hroom : 1 ≤ config.maxEntries)
    (hbefore : ({ config } : Cache).serveAll depth before = some c)
    (hresolve : c.resolve fs cwd depth root = some (.ok paths, c₁, actions))
    (hmiss : c₁.stats.misses = c.stats.misses + 1)
    (hfound : dependencies fs cwd depth root = some (.ok files, found))
    (htrusted : ∀ f ∈ files, f.stat.canBeStale config.staleSlack = false) :
    paths = relPaths files ∧ c₁.table.find? (.of cwd root) = some files ∧
    ∀ between c₂, c₁.serveAll depth between = some c₂ →
      (∀ r ∈ between, r.key ≠ .of cwd root) → .of cwd root ∈ c₂.table.keys →
      ∀ later, LookSame later files → ∀ depth', ∃ actions',
        c₂.resolve later cwd depth' root = some (.ok paths, c₂.countHit, actions') ∧
        Action.reads actions' = [] := by
  have hbalanced := (balanced_empty config).serveAll hbefore
  obtain rfl : c.config = config := config_of_serveAll hbefore
  have ha := answers_of_resolve hresolve
  let k : Call := ⟨fs, cwd, root⟩
  have hconfig₁ : c₁.config = c.config := Answers.config_eq (k := k) ha
  obtain ⟨rfl, hfind⟩ := hbalanced.find?_of_miss (k := k) hroom ha hmiss hfound htrusted
  refine ⟨rfl, hfind, fun between c₂ hrun hothers hleft later hsame depth' => ?_⟩
  have hfind₂ : c₂.table.find? (.of cwd root) = some files := by
    rw [(hbalanced.answers (k := k) ha).find?_serveAll hrun hothers hleft]
    exact hfind
  have hvalid : ∀ f ∈ files, f.stat.isValid = true := fun f hf =>
    (located_of_dependencies hfound f hf).isValid
  apply resolve_of_same hfind₂
  rw [config_of_serveAll hrun, hconfig₁]
  exact hsame.mayDiffer_eq_false hvalid htrusted

/-- An edit makes a second call miss, and its answer takes the place of the first one. After a call
with another key it is given again. -/
theorem resolve_again_replaced :
    let old : List (Path × String) := [(.ofString "/w/a", "module a \x7b \x7d")]
    let edited : List (Path × String) :=
      [(.ofString "/w/a", "extern module b \"b\""), (.ofString "/w/b", "module b \x7b \x7d")]
    let seen (secs : Int) : FileSystem := .holding ⟨10, 0, by decide⟩ ⟨secs, 0, by decide⟩ edited
    let cwd : Path := .ofString "/w"
    let root : Path := .ofString "a"
    let before : List Request :=
      [{ fs := .holding ⟨0, 0, by decide⟩ ⟨9, 0, by decide⟩ old, cwd, root }]
    let between : List Request := [{ fs := seen 21, cwd, root := .ofString "b" }]
    ∃ c c₁ c₂ actions actions',
      ({ config := { maxEntries := 2 } } : Cache).serveAll 2 before = some c ∧
      c.resolve (seen 20) cwd 2 root = some (.ok ["a", "b"], c₁, actions) ∧
      c₁.serveAll 2 between = some c₂ ∧
      c₂.resolve (seen 22) cwd 0 root = some (.ok ["a", "b"], c₂.countHit, actions') ∧
      Action.reads actions' = [] := by
  intro old edited seen cwd root before between
  obtain ⟨c, hbefore, hrest⟩ := Option.bind_eq_some_iff.mp
    (show (({ config := { maxEntries := 2 } } : Cache).serveAll 2 before).bind (fun c =>
      (c.resolve (seen 20) cwd 2 root).bind fun out => (out.2.1.serveAll 2 between).map fun c₂ =>
        (out.1.toOption, decide (out.2.1.stats.misses = c.stats.misses + 1),
          decide (.of cwd root ∈ c₂.table.keys))) =
      some (some ["a", "b"], true, true) by decide +kernel)
  obtain ⟨⟨answer, c₁, actions⟩, hresolve, hrest⟩ := Option.bind_eq_some_iff.mp hrest
  obtain ⟨c₂, hbetween, hseen⟩ := Option.map_eq_some_iff.mp hrest
  simp only [Prod.mk.injEq, decide_eq_true_eq] at hseen
  obtain ⟨hanswer, hmiss, hleft⟩ := hseen
  obtain ⟨⟨result, found⟩, hfound, hfiles⟩ := Option.map_eq_some_iff.mp
    (show (dependencies (seen 20) cwd 2 root).map (fun out => out.1.toOption.map fun files =>
        (decide (∀ f ∈ files, f.stat.canBeStale (.ofMillis 1000) = false),
          decide (LookSame (seen 22) files))) = some (some (true, true)) by decide +kernel)
  cases answer with
  | error e => cases hanswer
  | ok paths =>
    cases hanswer
    cases result with
    | error e => cases hfiles
    | ok files =>
      simp only [Except.toOption, Option.map_some, Option.some.injEq, Prod.mk.injEq,
        decide_eq_true_eq] at hfiles
      obtain ⟨-, -, hagain⟩ := resolve_again (by decide) hbefore hresolve hmiss hfound hfiles.1
      obtain ⟨actions', hlater, hreads⟩ := hagain between c₂ hbetween (by decide) hleft (seen 22)
        hfiles.2 0
      exact ⟨c, c₁, c₂, actions, actions', hbefore, hresolve, hbetween, hlater, hreads⟩

end Cache

end ModuleDeps
