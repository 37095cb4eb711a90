import ModuleDeps.Proofs.Cache.Requests

/-!
# The books of a cache

A cache counts what it does, and keeps a queue of its keys beside its answers. Over every run of
requests the counters agree with the run and with the table (`Balanced`): each request is a hit or a
miss, and each key that came new into the table is still there or was counted when it went.

Each way in which a cache answers changes one counter and at most one answer, and an eviction counts
what it takes out; so one request keeps the balance (`Balanced.answers`), and a run does by induction.
-/

namespace ModuleDeps

namespace Cache

/-- The files of a search can all be trusted. -/
def trusts (slack : Span) (files : List ModuleMapFile) : Bool :=
  files.all fun f => !f.stat.canBeStale slack

/-- The call stores its answer under a key that the table does not have. -/
def adds (depth : Nat) (c : Cache) (k : Call) : Bool :=
  match c.table.find? k.key, dependencies k.fs k.cwd depth k.root with
  | none, some (.ok files, _) => trusts c.config.staleSlack files
  | _, _ => false

/-- How many of the requests store their answers under a key that the table does not have then. -/
def additions (depth : Nat) : Cache → List Request → Nat
  | _, [] => 0
  | c, r :: rs =>
    (c.adds depth r.toCall).toNat + ((c.serve depth r).map fun c => additions depth c rs).getD 0

/-- The books of a cache after `calls` calls, `added` of which stored an answer under a new key. -/
structure Balanced (calls added : Nat) (c : Cache) : Prop where
  /-- Each key of the table is queued once, and no other keys are. -/
  inStep : c.table.InStep
  /-- There are not too many answers. -/
  size_le : c.size ≤ c.config.maxEntries
  /-- Each call was a hit or a miss. -/
  calls_eq : c.stats.hits + c.stats.misses = .ofNat calls
  /-- What came into the table went or is there. -/
  added_eq : c.stats.evicted + .ofNat c.size = .ofNat added

variable {depth calls added : Nat} {c c' : Cache} {k : Call} {r : Request}
  {answer : Except Unresolvable (List String)} {actions : List Action}

/-! ### One request -/

theorem adds_of_find?_eq_some {files : List ModuleMapFile}
    (h : c.table.find? k.key = some files) : c.adds depth k = false := by
  unfold adds
  rw [h]

theorem adds_of_error {e : FileError}
    (h : dependencies k.fs k.cwd depth k.root = some (.error e, actions)) :
    c.adds depth k = false := by
  unfold adds
  rw [h]
  cases c.table.find? k.key <;> rfl

/-- A search decides about an addition by its files, if the key is new. -/
theorem adds_of_ok {files : List ModuleMapFile}
    (h : dependencies k.fs k.cwd depth k.root = some (.ok files, actions)) :
    c.adds depth k = ((c.table.find? k.key).isNone && trusts c.config.staleSlack files) := by
  unfold adds
  rw [h]
  cases c.table.find? k.key <;> rfl

theorem trusts_eq_true {slack : Span} {files : List ModuleMapFile}
    (h : ∀ f ∈ files, f.stat.canBeStale slack = false) : trusts slack files = true := by
  unfold trusts
  rw [List.all_eq_true]
  intro f hf
  rw [h f hf]
  rfl

theorem trusts_eq_false {slack : Span} {files : List ModuleMapFile} {file : ModuleMapFile}
    (h : files.find? (·.stat.canBeStale slack) = some file) : trusts slack files = false := by
  unfold trusts
  rw [List.all_eq_false]
  refine ⟨file, List.mem_of_find?_eq_some h, ?_⟩
  have hstale := List.find?_some h
  rw [hstale]
  exact Bool.false_ne_true

/-- Files that cannot all be trusted are not kept. -/
theorem adds_of_untrusted {files : List ModuleMapFile} {file : ModuleMapFile}
    (hd : dependencies k.fs k.cwd depth k.root = some (.ok files, actions))
    (hs : files.find? (·.stat.canBeStale c.config.staleSlack) = some file) :
    c.adds depth k = false := by
  rw [adds_of_ok hd, trusts_eq_false hs, Bool.and_false]

/-- Files that can all be trusted are kept, under a new key if it is new. -/
theorem adds_of_trusted {files : List ModuleMapFile}
    (hd : dependencies k.fs k.cwd depth k.root = some (.ok files, actions))
    (hs : ∀ f ∈ files, f.stat.canBeStale c.config.staleSlack = false) :
    c.adds depth k = (c.table.find? k.key).isNone := by
  rw [adds_of_ok hd, trusts_eq_true hs, Bool.and_true]

theorem Balanced.countHit (h : c.Balanced calls added) :
    c.countHit.Balanced (calls + 1) added := by
  refine ⟨h.inStep, h.size_le, ?_, h.added_eq⟩
  calc c.stats.hits + 1 + c.stats.misses
      = c.stats.hits + c.stats.misses + 1 := by
        rw [UInt64.add_assoc, UInt64.add_comm 1, ← UInt64.add_assoc]
    _ = .ofNat (calls + 1) := by
        rw [UInt64.ofNat_add, ← h.calls_eq]
        rfl

theorem Balanced.countMiss (h : c.Balanced calls added) :
    c.countMiss.Balanced (calls + 1) added := by
  refine ⟨h.inStep, h.size_le, ?_, h.added_eq⟩
  rw [UInt64.ofNat_add, ← h.calls_eq]
  exact (UInt64.add_assoc _ _ _).symm

/-- An insertion counts what goes, and adds a new key alone. -/
theorem Balanced.insert (h : c.Balanced calls added) (key : CacheKey) (files : List ModuleMapFile) :
    (c.insert key files).1.Balanced calls (added + (c.table.find? key).isNone.toNat) := by
  obtain ⟨hstep, hle, hsum⟩ := (h.inStep.insert key files).evict c.config.maxEntries
  rw [Table.size_insert, Nat.add_comm] at hsum
  refine ⟨hstep, hle, h.calls_eq, ?_⟩
  calc c.stats.evicted + .ofNat ((c.table.insert key files).evict c.config.maxEntries).2.length +
        .ofNat ((c.table.insert key files).evict c.config.maxEntries).1.size
      = c.stats.evicted + .ofNat (c.size + (c.table.find? key).isNone.toNat) := by
        rw [UInt64.add_assoc, ← UInt64.ofNat_add, hsum]
        rfl
    _ = .ofNat (added + (c.table.find? key).isNone.toNat) := by
        rw [UInt64.ofNat_add, UInt64.ofNat_add, ← h.added_eq, UInt64.add_assoc]

/-- A request keeps the balance. -/
theorem Balanced.answers (h : c.Balanced calls added)
    (ha : Answers c k.fs k.cwd depth k.root answer c' actions) :
    c'.Balanced (calls + 1) (added + (c.adds depth k).toNat) := by
  cases ha with
  | hit hl =>
    rw [adds_of_find?_eq_some (of_lookup_hit hl).1]
    exact h.countHit
  | failed hm hd =>
    rw [adds_of_error hd]
    exact h.countMiss
  | untrusted hm hd hs =>
    rw [adds_of_untrusted hd hs]
    exact h.countMiss
  | kept hm hd hs =>
    rw [adds_of_trusted hd hs]
    exact h.countMiss.insert k.key _

/-! ### Runs -/

theorem Balanced.serveAll {rs : List Request} (h : c.Balanced calls added)
    (hrun : c.serveAll depth rs = some c') :
    c'.Balanced (calls + rs.length) (added + additions depth c rs) := by
  induction rs generalizing c calls added with
  | nil =>
    cases hrun
    exact h
  | cons r rs ih =>
    obtain ⟨c₁, hserve, hrun⟩ := Option.bind_eq_some_iff.mp hrun
    obtain ⟨answer, actions, ha⟩ := answers_of_serve hserve
    have hbalanced := ih (h.answers ha) hrun
    rw [Nat.add_assoc, Nat.add_comm 1, Nat.add_assoc] at hbalanced
    rw [additions, hserve]
    exact hbalanced

theorem balanced_empty (config : Config) : Balanced 0 0 { config } :=
  ⟨Table.inStep_empty, Nat.zero_le _, rfl, rfl⟩

/-- **A cache keeps its books**: after every run of requests, whatever happened to the file system
meanwhile, the table and its queue are in step and not too large, each request was a hit or a miss,
and each key that came new into the table was counted when it went or is still there. So an eviction
finds a key to take out as long as there are too many, and ends when there are not. A run over file
systems that hold finitely many files comes to an end. -/
theorem serveAll_balanced (config : Config) (rs : List Request) :
    ((∀ r ∈ rs, r.fs.places.Finite) →
      ∃ N, ∀ depth, N ≤ depth → (({ config } : Cache).serveAll depth rs).isSome = true) ∧
    ∀ depth c, ({ config } : Cache).serveAll depth rs = some c →
      c.config = config ∧ c.Balanced rs.length (additions depth { config } rs) ∧
      ∀ key files,
        (∀ t, Table.Evicting config.maxEntries (c.table.insert key files) t →
          config.maxEntries < t.size → t.popOldest?.isSome = true) ∧
        ∃ left, Table.Evicting config.maxEntries (c.table.insert key files) left ∧
          left.size ≤ config.maxEntries ∧ (c.insert key files).1.table = left := by
  refine ⟨fun hfinite => ?_, fun depth c hrun => ?_⟩
  · have hcalls : ∀ k ∈ rs.map (·.toCall), k.fs.places.Finite := by simpa using hfinite
    obtain ⟨N, hN⟩ := exists_depth hcalls
    exact ⟨N, fun depth hdepth => serveAll_isSome _ (by simpa using hN depth hdepth)⟩
  · have hconfig : c.config = config := config_of_serveAll hrun
    have hbalanced := (balanced_empty config).serveAll hrun
    rw [Nat.zero_add, Nat.zero_add] at hbalanced
    refine ⟨hconfig, hbalanced, fun key files => ?_⟩
    have hstep := hbalanced.inStep.insert key files
    refine ⟨fun t ht hsize => ?_, _, Table.evicting_evict _ _, (hstep.evict _).2.1, ?_⟩
    · obtain ⟨oldest, rest, hpop⟩ := (ht.inStep hstep).exists_popOldest? (by omega)
      rw [hpop]
      rfl
    · rw [← hconfig]
      rfl

/-- A hit, a module map that is not there, one that was just written, and two that take the place of
the first in a table with room for one. One more would take the place of the last. -/
theorem serveAll_balanced_turnover :
    let files : List (Path × String) :=
      [(.ofString "/w/a", "module a \x7b \x7d"), (.ofString "/w/b", "module b \x7b \x7d")]
    let seen (now : Moment) : FileSystem := .holding ⟨0, 0, by decide⟩ now files
    let rs : List Request := [
      { fs := seen ⟨9, 0, by decide⟩, cwd := .ofString "/w", root := .ofString "a" },
      { fs := seen ⟨10, 0, by decide⟩, cwd := .ofString "/w/.", root := .ofString "a",
        includeFiles? := some ["z"] },
      { fs := seen ⟨11, 0, by decide⟩, cwd := .ofString "/w", root := .ofString "c" },
      { fs := seen ⟨0, 0, by decide⟩, cwd := .ofString "/w", root := .ofString "b" },
      { fs := seen ⟨12, 0, by decide⟩, cwd := .ofString "/w", root := .ofString "b" },
      { fs := seen ⟨13, 0, by decide⟩, cwd := .ofString "/w", root := .ofString "a" }]
    let key : CacheKey := .of (.ofString "/w") (.ofString "d")
    (∃ N, ∀ depth, N ≤ depth →
      (({ config := { maxEntries := 1 } } : Cache).serveAll depth rs).isSome = true) ∧
    ∃ c, ({ config := { maxEntries := 1 } } : Cache).serveAll 1 rs = some c ∧
      c.stats = ⟨1, 5, 2⟩ ∧ c.Balanced 6 3 ∧ (c.table.insert key []).popOldest?.isSome = true := by
  intro files seen rs key
  have hbooks := serveAll_balanced { maxEntries := 1 } rs
  have hfinite : ∀ r ∈ rs, r.fs.places.Finite := by
    have hseen : ∀ r ∈ rs, ∃ now, r.fs = seen now := by simp [rs]
    intro r hr
    obtain ⟨now, hnow⟩ := hseen r hr
    rw [hnow]
    exact finite_places_holding _ _ _
  refine ⟨hbooks.1 hfinite, ?_⟩
  obtain ⟨c, hrun, hc⟩ := Option.map_eq_some_iff.mp
    (show (({ config := { maxEntries := 1 } } : Cache).serveAll 1 rs).map
      (fun c => (c.stats, (c.table.insert key []).size)) = some (⟨1, 5, 2⟩, 2) by decide +kernel)
  obtain ⟨hstats, hsize⟩ := Prod.mk.inj hc
  have hadded : additions 1 { config := { maxEntries := 1 } } rs = 3 := by decide +kernel
  obtain ⟨-, hbalanced, hevicts⟩ := hbooks.2 1 c hrun
  rw [hadded] at hbalanced
  refine ⟨c, hrun, hstats, hbalanced, (hevicts key []).1 _ .start ?_⟩
  rw [hsize]
  decide

end Cache

end ModuleDeps
