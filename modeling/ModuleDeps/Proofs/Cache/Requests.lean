import ModuleDeps.Proofs.Cache.Soundness

/-!
# Runs of requests

A request asks a cache for an answer that goes to the caller, or that is added to a set of include
files. Either way the cache that is left is one that an answer leaves (`answers_of_serve`), and this
is all that the invariants of a run have to know of a request.
-/

namespace ModuleDeps

/-- A request to a cache: a call, and the set of include files that its answer is added to, if the
answer does not go to the caller. -/
structure Request extends Call where
  /-- The set of include files. -/
  includeFiles? : Option (List String) := none

namespace Cache

/-- The cache that is left by a request. -/
def serve (depth : Nat) (c : Cache) (r : Request) : Option Cache :=
  match r.includeFiles? with
  | none => (c.resolve r.fs r.cwd depth r.root).map fun (_, c, _) => c
  | some set => (c.resolveInto r.fs r.cwd depth r.root set).map fun (_, _, c, _) => c

/-- The cache that is left by requests that are made one after the other. -/
def serveAll (depth : Nat) : Cache → List Request → Option Cache
  | c, [] => some c
  | c, r :: rs => do serveAll depth (← c.serve depth r) rs

variable {depth : Nat} {c c' : Cache} {r : Request}

/-- The cache left by a request is one that is left by an answer. -/
theorem answers_of_serve (h : c.serve depth r = some c') :
    ∃ answer actions, Answers c r.fs r.cwd depth r.root answer c' actions := by
  unfold serve at h
  split at h
  · obtain ⟨⟨answer, _, actions⟩, hout, rfl⟩ := Option.map_eq_some_iff.mp h
    exact ⟨answer, actions, answers_of_resolve hout⟩
  · obtain ⟨⟨_, _, _, actions⟩, hout, rfl⟩ := Option.map_eq_some_iff.mp h
    rcases resolveInto_cases hout with ⟨paths, hresolve, -, -⟩ | ⟨e, hresolve, -, -⟩
    · exact ⟨.ok paths, actions, answers_of_resolve hresolve⟩
    · exact ⟨.error e, actions, answers_of_resolve hresolve⟩

theorem serve_isSome (c : Cache) (h : (dependencies r.fs r.cwd depth r.root).isSome = true) :
    (c.serve depth r).isSome = true := by
  obtain ⟨⟨answer, c', actions⟩, hresolve⟩ := Option.isSome_iff_exists.mp (c.resolve_isSome h)
  unfold serve resolveInto
  rw [hresolve]
  split
  · rfl
  · cases answer <;> rfl

/-! ### Runs -/

theorem config_of_serveAll {rs : List Request} (hrun : c.serveAll depth rs = some c') :
    c'.config = c.config := by
  induction rs generalizing c with
  | nil =>
    cases hrun
    rfl
  | cons r rs ih =>
    obtain ⟨c₁, hserve, hrun⟩ := Option.bind_eq_some_iff.mp hrun
    obtain ⟨answer, actions, ha⟩ := answers_of_serve hserve
    rw [ih hrun, Answers.config_eq (k := r.toCall) ha]

theorem serveAll_isSome {rs : List Request} (c : Cache)
    (h : ∀ r ∈ rs, (dependencies r.fs r.cwd depth r.root).isSome = true) :
    (c.serveAll depth rs).isSome = true := by
  induction rs generalizing c with
  | nil => rfl
  | cons r rs ih =>
    obtain ⟨c₁, hserve⟩ := Option.isSome_iff_exists.mp (c.serve_isSome (h r List.mem_cons_self))
    simp only [serveAll, hserve]
    exact ih c₁ fun r' hr' => h r' (List.mem_cons_of_mem r hr')

end Cache

end ModuleDeps
