import ModuleDeps.Proofs.Cache.Bookkeeping

/-!
# What a call leaves alone

A call of the cache looks into the table, searches, decides whether the files can be trusted, stores
them and evicts, and it may stop after each of these. Up to the last two it only counts. What it
stores goes under its own key, and of the keys of the table only the oldest can go, and only if its
own key is new (`Table.Admits`). This needs a queue that is in step with the map, or an eviction could
go through keys that the map does not have and on to newer ones than it must.

`Frame` lists what a call that succeeds can leave of a cache; a call that fails leaves a miss.

The set of include files of a caller is an ascending list here, so its members determine it.
-/

namespace ModuleDeps

namespace Table

variable {κ α : Type} [DecidableEq κ] {t : Table κ α} {capacity : Nat}

/-- `t'` is the table `t` with `value` under `key`, and without its oldest keys that are too many if
`key` is new. -/
structure Admits (capacity : Nat) (t : Table κ α) (key : κ) (value : α) (t' : Table κ α) : Prop where
  /-- A key that was there keeps its turn, and all others stay with theirs. -/
  order_of_mem : key ∈ t.keys → t'.order = t.order
  /-- A key that is new is the newest, and the newest keys stay in their order, as many as may. -/
  order_of_not_mem : key ∉ t.keys → t'.order = (t.order ++ [key]).rtake capacity
  /-- The new value is under the key. -/
  find?_self : key ∈ t'.order → t'.find? key = some value
  /-- Other keys keep their values. -/
  find?_of_ne : ∀ other ∈ t'.order, other ≠ key → t'.find? other = t.find? other
  /-- What went from the queue went from the map. -/
  find?_of_not_mem : ∀ other ∉ t'.order, t'.find? other = none

/-- An insertion and an eviction admit the value to a table that was not too large. -/
theorem InStep.admits (h : t.InStep) (hsize : t.size ≤ capacity) (key : κ) (value : α) :
    Admits capacity t key value ((t.insert key value).evict capacity).1 := by
  have hstep := h.insert key value
  have hleft := (hstep.evict capacity).1
  refine ⟨fun hmem => ?_, fun hmem => ?_, fun hself => ?_, fun other hother hne => ?_,
    fun other hother => ?_⟩
  · rw [hstep.order_evict, order_insert_of_mem hmem,
      rtake_of_length_le (h.length_order.trans_le hsize)]
  · rw [hstep.order_evict, insert_of_not_mem hmem]
  · rw [hstep.find?_evict (hleft.perm.mem_iff.mpr hself), h.find?_insert_self]
  · rw [hstep.find?_evict (hleft.perm.mem_iff.mpr hother), h.find?_insert_of_ne hne]
  · rwa [find?_eq_none_iff, hleft.perm.mem_iff]

end Table

/-! ### Sets of include files -/

section IncludeFiles

variable {s t : String} {set paths : List String}

theorem mem_insertPath : s ∈ insertPath t set ↔ s = t ∨ s ∈ set := by
  fun_induction insertPath t set with
  | case1 => simp
  | case2 => simp
  | case3 => simp
  | case4 u set _ _ ih => rw [List.mem_cons, ih, List.mem_cons, or_left_comm]

/-- A set stays in order. -/
theorem pairwise_insertPath (h : set.Pairwise (· < ·)) (t : String) :
    (insertPath t set).Pairwise (· < ·) := by
  fun_induction insertPath t set with
  | case1 => exact List.pairwise_singleton _ _
  | case2 u set hlt =>
    obtain ⟨hu, -⟩ := List.pairwise_cons.mp h
    refine List.pairwise_cons.mpr ⟨fun s hs => ?_, h⟩
    rcases List.mem_cons.mp hs with rfl | hs
    · exact hlt
    · exact String.lt_trans hlt (hu s hs)
  | case3 => exact h
  | case4 u set hlt hne ih =>
    obtain ⟨hu, hset⟩ := List.pairwise_cons.mp h
    have hgt : u < t := Std.lt_of_le_of_ne (String.not_lt.mp hlt) (Ne.symm hne)
    refine List.pairwise_cons.mpr ⟨fun s hs => ?_, ih hset⟩
    rcases mem_insertPath.mp hs with rfl | hs
    · exact hgt
    · exact hu s hs

theorem mem_addPaths : s ∈ addPaths set paths ↔ s ∈ set ∨ s ∈ paths := by
  unfold addPaths
  induction paths generalizing set with
  | nil => simp
  | cons t paths ih => rw [List.foldl_cons, ih, mem_insertPath, List.mem_cons, or_assoc, or_left_comm]

theorem pairwise_addPaths (h : set.Pairwise (· < ·)) (paths : List String) :
    (addPaths set paths).Pairwise (· < ·) := by
  unfold addPaths
  induction paths generalizing set with
  | nil => exact h
  | cons t paths ih => exact ih (pairwise_insertPath h t)

end IncludeFiles

namespace Cache

variable {depth calls added : Nat} {c c' : Cache} {k : Call} {fs : FileSystem} {cwd root : Path}
  {paths : List String} {actions : List Action}

/-- The call is answered from the table. -/
def Hits (c : Cache) (k : Call) : Prop :=
  ∃ files actions, c.lookup k.fs k.key = (.hit files, actions)

/-- What is left of the cache `c` by the call `k` if it succeeds. -/
inductive Frame (depth : Nat) (c : Cache) (k : Call) : Cache → Prop where
  /-- An answer from the table is only counted. -/
  | hit (h : c.Hits k) : Frame depth c k c.countHit
  /-- A miss is only counted if the files that are found cannot all be trusted. -/
  | untrusted {files : List ModuleMapFile} {actions : List Action} (h : ¬ c.Hits k)
      (hd : dependencies k.fs k.cwd depth k.root = some (.ok files, actions))
      (htrusts : trusts c.config.staleSlack files = false) : Frame depth c k c.countMiss
  /-- Others are admitted to the table, and beside the miss only what goes is counted. -/
  | trusted {files : List ModuleMapFile} {actions : List Action}
      {table : Table CacheKey (List ModuleMapFile)} {evicted : UInt64} (h : ¬ c.Hits k)
      (hd : dependencies k.fs k.cwd depth k.root = some (.ok files, actions))
      (htrusts : trusts c.config.staleSlack files = true)
      (hadmits : Table.Admits c.config.maxEntries c.table k.key files table) :
      Frame depth c k { c with table, stats := { c.countMiss.stats with evicted } }

theorem Missed.not_hits (h : c.Missed k.fs k.key actions) : ¬ c.Hits k := by
  rintro ⟨files, found, hhit⟩
  cases h with
  | notCached h => cases hhit.symm.trans h
  | changed h => cases hhit.symm.trans h

theorem Balanced.frame (h : c.Balanced calls added)
    (ha : Answers c k.fs k.cwd depth k.root (.ok paths) c' actions) : Frame depth c k c' := by
  cases ha with
  | hit hl => exact .hit ⟨_, _, hl⟩
  | untrusted hm hd hs => exact .untrusted hm.not_hits hd (trusts_eq_false hs)
  | kept hm hd hs =>
    exact .trusted hm.not_hits hd (trusts_eq_true hs) (h.inStep.admits h.size_le k.key _)

theorem Answers.eq_countMiss_of_error {e : Unresolvable}
    (ha : Answers c k.fs k.cwd depth k.root (.error e) c' actions) : c' = c.countMiss := by
  cases ha
  rfl

/-- **A call touches only what it must**: in every cache that a run of requests leaves, a call that
fails leaves the set of the caller as it was and only counts a miss, also where an older answer under
its key is no longer right. A call that succeeds makes the set its union with the paths that it
answers with. If these come from the table they are only counted, and so they are if they come from
files that cannot all be trusted; others are admitted to the table under the key of the call. -/
theorem resolveInto_frame {config : Config} {depth₀ : Nat} {before : List Request}
    {set set' : List String} {result : Except Unresolvable Unit}
    (hbefore : ({ config } : Cache).serveAll depth₀ before = some c)
    (hset : set.Pairwise (· < ·))
    (hresolve : c.resolveInto fs cwd depth root set = some (result, set', c', actions)) :
    (∀ e, result = .error e → set' = set ∧ c' = c.countMiss) ∧
    (result = .ok () → Frame depth c ⟨fs, cwd, root⟩ c' ∧
      ∃ paths, c.resolve fs cwd depth root = some (.ok paths, c', actions) ∧
        set'.Pairwise (· < ·) ∧ ∀ s, s ∈ set' ↔ s ∈ set ∨ s ∈ paths) := by
  have hbalanced := (balanced_empty config).serveAll hbefore
  let k : Call := ⟨fs, cwd, root⟩
  rcases resolveInto_cases hresolve with ⟨paths, hpaths, rfl, rfl⟩ | ⟨e, herror, rfl, rfl⟩
  · refine ⟨nofun, fun _ => ⟨hbalanced.frame (answers_of_resolve hpaths), paths, hpaths, ?_⟩⟩
    exact ⟨pairwise_addPaths hset paths, fun _ => mem_addPaths⟩
  · refine ⟨fun _ _ => ⟨rfl, ?_⟩, nofun⟩
    exact Answers.eq_countMiss_of_error (k := k) (answers_of_resolve herror)

/-- There is room for two. The module map that came first is edited and cannot be read any more, and
its answer stays. One that comes new takes the place of that answer. -/
theorem resolveInto_frame_edited :
    let old : List (Path × String) :=
      [(.ofString "/w/a", "module a \x7b \x7d"), (.ofString "/w/b", "module b \x7b \x7d")]
    let edited : List (Path × String) :=
      [(.ofString "/w/a", "module a \x7b"), (.ofString "/w/b", "module b \x7b \x7d"),
        (.ofString "/w/c", "extern module b \"b\"")]
    let seen : FileSystem := .holding ⟨0, 0, by decide⟩ ⟨9, 0, by decide⟩ old
    let seenLater : FileSystem := .holding ⟨10, 0, by decide⟩ ⟨20, 0, by decide⟩ edited
    let cwd : Path := .ofString "/w"
    let call (root : String) : Call := ⟨seenLater, cwd, .ofString root⟩
    let before : List Request :=
      [{ fs := seen, cwd, root := .ofString "a" }, { fs := seen, cwd, root := .ofString "b" }]
    ∃ c c₁ c₂ e actions₁ actions₂,
      ({ config := { maxEntries := 2 } } : Cache).serveAll 2 before = some c ∧
      c.table.order = [(call "a").key, (call "b").key] ∧
      c.resolveInto seenLater cwd 2 (.ofString "a") ["z"] =
        some (.error e, ["z"], c₁, actions₁) ∧ c₁ = c.countMiss ∧
      c.resolveInto seenLater cwd 2 (.ofString "c") ["a", "z"] =
        some (.ok (), ["a", "b", "c", "z"], c₂, actions₂) ∧ Frame 2 c (call "c") c₂ ∧
      c₂.table.order = [(call "b").key, (call "c").key] := by
  intro old edited seen seenLater cwd call before
  obtain ⟨c, hbefore, hrest⟩ := Option.bind_eq_some_iff.mp
    (show (({ config := { maxEntries := 2 } } : Cache).serveAll 2 before).bind (fun c =>
      (c.resolveInto seenLater cwd 2 (.ofString "a") ["z"]).bind fun out₁ =>
      (c.resolveInto seenLater cwd 2 (.ofString "c") ["a", "z"]).map fun out₂ =>
        (c.table.order, out₁.1.toOption, out₂.1.toOption, out₂.2.1, out₂.2.2.1.table.order)) =
      some ([(call "a").key, (call "b").key], none, some (), ["a", "b", "c", "z"],
        [(call "b").key, (call "c").key]) by decide +kernel)
  obtain ⟨⟨result₁, set₁, c₁, actions₁⟩, hfailed, hrest⟩ := Option.bind_eq_some_iff.mp hrest
  obtain ⟨⟨result₂, set₂, c₂, actions₂⟩, hfound, hseen⟩ := Option.map_eq_some_iff.mp hrest
  simp only [Prod.mk.injEq] at hseen
  obtain ⟨horder, herror, hok, rfl, horder₂⟩ := hseen
  cases result₁ with
  | ok => cases herror
  | error e =>
    cases result₂ with
    | error e₂ => cases hok
    | ok =>
      obtain ⟨rfl, hmiss⟩ := (resolveInto_frame hbefore (by decide) hfailed).1 e rfl
      have hframe := ((resolveInto_frame hbefore (by decide) hfound).2 rfl).1
      exact ⟨c, c₁, c₂, e, actions₁, actions₂, hbefore, horder, hfailed, hmiss, hfound, hframe,
        horder₂⟩

end Cache

end ModuleDeps
