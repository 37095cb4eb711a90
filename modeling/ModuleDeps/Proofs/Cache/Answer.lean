import ModuleDeps.Cache
import ModuleDeps.Proofs.Cache.Table

/-!
# What a call of the cache can come to

`Answers` lists the four ways in which a cache answers: from its table, with the failure of a
search, and with the files of a search that are kept or are not. `answers_of_resolve` says that
there are no others.
-/

namespace ModuleDeps

namespace Cache

/-- The cache with one more answer from its table. -/
def countHit (c : Cache) : Cache := { c with stats := { c.stats with hits := c.stats.hits + 1 } }

/-- The cache with one more answer that is not from its table. -/
def countMiss (c : Cache) : Cache :=
  { c with stats := { c.stats with misses := c.stats.misses + 1 } }

@[simp] theorem config_countHit (c : Cache) : c.countHit.config = c.config := rfl

@[simp] theorem entries_countHit (c : Cache) : c.countHit.entries = c.entries := rfl

@[simp] theorem config_countMiss (c : Cache) : c.countMiss.config = c.config := rfl

@[simp] theorem entries_countMiss (c : Cache) : c.countMiss.entries = c.entries := rfl

@[simp] theorem config_insert (c : Cache) (key : CacheKey) (files : List ModuleMapFile) :
    (c.insert key files).1.config = c.config := rfl

/-! ### The table -/

/-- An insertion puts no other answer into the table. -/
theorem mem_insert {c : Cache} {key : CacheKey} {files : List ModuleMapFile}
    {e : CacheKey × List ModuleMapFile} (h : e ∈ (c.insert key files).1.entries) :
    e = (key, files) ∨ e ∈ c.entries := Table.mem_entries_insert (Table.evict_subset _ _ h)

/-- Files are found as they were if none of them may differ. -/
theorem revalidate_eq_none {fs : FileSystem} {slack : Span} {files : List ModuleMapFile}
    (h : (revalidate fs slack files).1 = none) : ∀ f ∈ files, mayDiffer fs slack f = false := by
  induction files with
  | nil => nofun
  | cons g files ih =>
    rw [revalidate] at h
    split at h
    · cases h
    · rename_i hg
      intro f hf
      rcases List.mem_cons.mp hf with rfl | hf
      · simpa using hg
      · exact ih h f hf

/-- An answer from the table is one that was kept, and its files are as they were. -/
theorem of_lookup_hit {c : Cache} {fs : FileSystem} {key : CacheKey} {files : List ModuleMapFile}
    {actions : List Action} (h : c.lookup fs key = (.hit files, actions)) :
    c.table.find? key = some files ∧ ∀ f ∈ files, mayDiffer fs c.config.staleSlack f = false := by
  unfold lookup at h
  cases hl : c.table.find? key with
  | none => simp [hl] at h
  | some kept =>
    rw [hl] at h
    cases hr : revalidate fs c.config.staleSlack kept with
    | mk path? actions' =>
      cases path? with
      | some path => simp [hr] at h
      | none =>
        obtain ⟨rfl, -⟩ : kept = files ∧ actions' = actions := by simpa [hr] using h
        exact ⟨rfl, revalidate_eq_none (by rw [hr])⟩

/-! ### Answers -/

/-- The table has no answer, and `actions` were done to find this out. -/
inductive Missed (c : Cache) (fs : FileSystem) (key : CacheKey) : List Action → Prop where
  /-- It has nothing under the key. -/
  | notCached {actions : List Action} (h : c.lookup fs key = (.notCached, actions)) :
      Missed c fs key (actions ++ [.log (.miss key.moduleMap)])
  /-- A file of the kept answer may have changed. -/
  | changed {path : Path} {actions : List Action} (h : c.lookup fs key = (.changed path, actions)) :
      Missed c fs key (actions ++ [.log (.changed key.moduleMap path)])

/-- The answers that the cache `c` can give about the module map `root`, with the cache that is left
and what was done. -/
inductive Answers (c : Cache) (fs : FileSystem) (cwd : Path) (depth : Nat) (root : Path) :
    Except Unresolvable (List String) → Cache → List Action → Prop where
  /-- The answer is in the table. -/
  | hit {files : List ModuleMapFile} {actions : List Action}
      (h : c.lookup fs (.of cwd root) = (.hit files, actions)) :
      Answers c fs cwd depth root (.ok (relPaths files)) c.countHit
        (actions ++ [.log (.hit (CacheKey.of cwd root).moduleMap)])
  /-- The search fails. -/
  | failed {e : FileError} {before actions : List Action} (hm : c.Missed fs (.of cwd root) before)
      (h : dependencies fs cwd depth root = some (.error e, actions)) :
      Answers c fs cwd depth root (.error ⟨(CacheKey.of cwd root).moduleMap, e⟩) c.countMiss
        (before ++ actions)
  /-- One of the files that are found was modified too recently to be trusted. -/
  | untrusted {files : List ModuleMapFile} {file : ModuleMapFile} {before actions : List Action}
      (hm : c.Missed fs (.of cwd root) before)
      (h : dependencies fs cwd depth root = some (.ok files, actions))
      (hs : files.find? (·.stat.canBeStale c.config.staleSlack) = some file) :
      Answers c fs cwd depth root (.ok (relPaths files)) c.countMiss
        (before ++ (actions ++ [.log (.notCached (CacheKey.of cwd root).moduleMap file.absPath)]))
  /-- The files that are found are kept. -/
  | kept {files : List ModuleMapFile} {before actions : List Action}
    (hm : c.Missed fs (.of cwd root) before)
      (h : dependencies fs cwd depth root = some (.ok files, actions))
      (hs : ∀ f ∈ files, f.stat.canBeStale c.config.staleSlack = false) :
      Answers c fs cwd depth root (.ok (relPaths files)) (c.countMiss.insert (.of cwd root) files).1
        (before ++ (actions ++ (c.countMiss.insert (.of cwd root) files).2.map .log))

variable {c c' : Cache} {fs : FileSystem} {cwd root : Path} {depth : Nat}
  {answer : Except Unresolvable (List String)} {actions : List Action}

theorem answers_of_missed {before : List Action} {event : LogEntry}
    (hm : c.Missed fs (.of cwd root) (before ++ [.log event]))
    (h : resolve.missed fs cwd depth root c before event = some (answer, c', actions)) :
    Answers c fs cwd depth root answer c' actions := by
  simp only [resolve.missed, refresh, ← countMiss.eq_1 c] at h
  cases hd : dependencies fs cwd depth root with
  | none => simp [hd] at h
  | some out =>
    obtain ⟨result, as⟩ := out
    cases result with
    | error e =>
      obtain ⟨rfl, rfl, rfl⟩ := by simpa [hd, Except.map] using h
      simpa using Answers.failed hm hd
    | ok files =>
      cases hs : files.find? (·.stat.canBeStale c.config.staleSlack) with
      | some file =>
        obtain ⟨rfl, rfl, rfl⟩ := by simpa [hd, hs, Except.map] using h
        simpa using Answers.untrusted hm hd hs
      | none =>
        obtain ⟨rfl, rfl, rfl⟩ := by simpa [hd, hs, Except.map] using h
        simpa using Answers.kept hm hd (by simpa using hs)

theorem answers_of_resolve (h : c.resolve fs cwd depth root = some (answer, c', actions)) :
    Answers c fs cwd depth root answer c' actions := by
  unfold resolve at h
  cases hl : c.lookup fs (.of cwd root) with
  | mk found before =>
    simp only [hl] at h
    cases found with
    | hit files =>
      obtain ⟨rfl, rfl, rfl⟩ := by simpa using h
      exact .hit hl
    | notCached => exact answers_of_missed (.notCached hl) h
    | changed path => exact answers_of_missed (.changed hl) h

/-- An answer is added to a set, or there is none and the set is left. -/
theorem resolveInto_cases {set set' : List String} {result : Except Unresolvable Unit}
    (h : c.resolveInto fs cwd depth root set = some (result, set', c', actions)) :
    (∃ paths, c.resolve fs cwd depth root = some (.ok paths, c', actions) ∧
      result = .ok () ∧ set' = addPaths set paths) ∨
    ∃ e, c.resolve fs cwd depth root = some (.error e, c', actions) ∧
      result = .error e ∧ set' = set := by
  unfold resolveInto at h
  obtain ⟨⟨answer, c₁, actions₁⟩, hresolve, hout⟩ := Option.bind_eq_some_iff.mp h
  cases answer with
  | error e =>
    cases hout
    exact .inr ⟨e, hresolve, rfl, rfl⟩
  | ok paths =>
    cases hout
    exact .inl ⟨paths, hresolve, rfl, rfl⟩

/-! ### There is an answer when the search ends -/

theorem refresh_isSome (c : Cache) (h : (dependencies fs cwd depth root).isSome = true) :
    (c.refresh fs cwd depth root).isSome = true := by
  obtain ⟨⟨result, actions⟩, hd⟩ := Option.isSome_iff_exists.mp h
  unfold refresh
  rw [hd]
  cases result with
  | error e => rfl
  | ok files => cases hs : files.find? (·.stat.canBeStale c.config.staleSlack) <;> simp [hs]

theorem missed_isSome (c : Cache) (before : List Action) (event : LogEntry)
    (h : (dependencies fs cwd depth root).isSome = true) :
    (resolve.missed fs cwd depth root c before event).isSome = true := by
  obtain ⟨out, hout⟩ := Option.isSome_iff_exists.mp (c.countMiss.refresh_isSome h)
  simp only [resolve.missed, ← countMiss.eq_1 c, hout]
  rfl

theorem resolve_isSome (c : Cache) (h : (dependencies fs cwd depth root).isSome = true) :
    (c.resolve fs cwd depth root).isSome = true := by
  unfold resolve
  cases hl : c.lookup fs (.of cwd root) with
  | mk found before =>
    simp only [hl]
    cases found with
    | hit files => rfl
    | notCached => exact missed_isSome c before _ h
    | changed path => exact missed_isSome c before _ h

end Cache

end ModuleDeps
