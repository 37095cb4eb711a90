import ModuleDeps.Proofs.Discovery.Pending

/-!
# The search as a loop

`Discovery.loop` is a search without recursion: a stack of paths, from which one is taken in each
turn, and on which the references of its file are put. `add_iff_loop` says that it is the search
that `Discovery.add` makes, from any state on: the one ends if the other does, with the same
result, the same files found and the same things done, also where it fails half way.

A search that is a run over pending paths (`Explores`) is one that the loop makes, turn by turn, and
what the loop makes of a stack, the recursion makes of its paths one after the other. So all three
agree, and the bound on chains of references does not matter once it is large enough
(`Explores.exists_add`).
-/

namespace ModuleDeps.Discovery

/-- The search with more done. -/
def did (d : Discovery) (actions : List Action) : Discovery :=
  { d with actions := d.actions ++ actions }

/-- The search with one more file found. -/
def record (d : Discovery) (f : ModuleMapFile) : Discovery :=
  { d with visited := d.visited ++ [f.absPath], collected := d.collected ++ [f] }

/-- What one turn of the loop comes to. -/
inductive Turn where
  /-- The loop ends. -/
  | ended (r : Except FileError Unit) (d : Discovery)
  /-- It goes on with a stack, whose first path is on top. -/
  | goesOn (stack : List Path) (d : Discovery)

/-- The loop ends with an error, which is reported last. -/
def Turn.failed (e : FileError) (d : Discovery) : Turn :=
  .ended (.error e) (d.did [.log (.failed e)])

/-- One turn of the loop: a path is taken from the top of the stack, and what its file refers to is
put there. -/
def turn (fs : FileSystem) (cwd : Path) : List Path → Discovery → Turn
  | [], d => .ended (.ok ()) d
  | p :: stack, d =>
    match p.text? with
    | none => .failed (.notUtf8 p) d
    | some relPath =>
      let q := Path.seenFrom cwd p
      if q ∈ d.visited then
        .goesOn stack (d.did [.log (.alreadyVisited q)])
      else
        let stat := fs.stat q
        let d := d.did [.stat q]
        if !stat.isValid then
          .failed (.missing q) d
        else if stat.isDirectory then
          .failed (.directory q) d
        else
          let d := ((d.did [.log (.visiting q)]).record ⟨relPath, q, stat⟩).did [.read q]
          match fs.read q with
          | .error failure => .failed (.unreadable q failure) d
          | .ok content =>
            match ModuleMap.ofText content with
            | .error e => .failed (.malformed q e) d
            | .ok m =>
              .goesOn (m.externFilenames.map (fun name => p.dirname.join (.ofString name)) ++ stack) d

/-- The loop, for as many turns as there may be. -/
def loop (fs : FileSystem) (cwd : Path) :
    (turns : Nat) → List Path → Discovery → Option (Except FileError Unit × Discovery)
  | 0, _, _ => none
  | turns + 1, stack, d =>
    match turn fs cwd stack d with
    | .ended r d => some (r, d)
    | .goesOn stack d => loop fs cwd turns stack d

variable {fs : FileSystem} {cwd : Path} {p : Path} {ps qs : List Path} {d d' : Discovery}
  {r : Except FileError Unit} {out : Except FileError Unit × Discovery} {depth turns : Nat}

/-! ### A turn is a visit -/

theorem readModuleMap_eq (q : Path) :
    readModuleMap fs q =
      match fs.read q with
      | .error failure => .error (.unreadable q failure)
      | .ok content => (ModuleMap.ofText content).mapError (.malformed q) := by
  unfold readModuleMap
  cases fs.read q <;> rfl

theorem turn_cons (fs : FileSystem) (cwd p : Path) (stack : List Path) (d : Discovery) :
    turn fs cwd (p :: stack) d =
      match (visit fs cwd d.visited p).result with
      | .error e => .ended (.error e) (d.after (visit fs cwd d.visited p))
      | .ok refs => .goesOn (refs ++ stack) (d.after (visit fs cwd d.visited p)) := by
  cases hp : p.text? with
  | none => simp [turn, visit, hp, Turn.failed, Visit.failure, did, after]
  | some relPath =>
    simp only [turn, visit, hp, readModuleMap_eq]
    split_ifs
    · simp [did, after]
    · simp [Turn.failed, Visit.failure, did, after]
    · simp [Turn.failed, Visit.failure, did, after]
    · cases hr : fs.read (Path.seenFrom cwd p) with
      | error failure => simp [Turn.failed, Visit.failure, did, record, after]
      | ok content =>
        cases hm : ModuleMap.ofText content with
        | error e => simp [hm, Except.mapError, Turn.failed, Visit.failure, did, record, after]
        | ok m =>
          simp only [hm, Except.mapError, did, record, after, List.append_assoc]
          rfl

/-! ### From the recursion to the loop -/

/-- Each search comes to its end in the loop, if there are turns enough. -/
theorem Explores.exists_loop (h : Explores fs cwd ps d r d') :
    ∃ turns, loop fs cwd turns ps d = some (r, d') := by
  induction h with
  | done => exact ⟨1, rfl⟩
  | @stop p ps d v e hv he =>
    subst hv
    exact ⟨1, by rw [loop, turn_cons, he]⟩
  | @step p ps refs d d' v r hv hr _ ih =>
    subst hv
    obtain ⟨turns, hturns⟩ := ih
    exact ⟨turns + 1, by rw [loop, turn_cons, hr]; exact hturns⟩

/-! ### From the loop to the recursion -/

theorem addEach_append (f : Path → Discovery → Option (Except FileError Unit × Discovery))
    (ps qs : List Path) (d : Discovery) :
    addEach f (ps ++ qs) d =
      match addEach f ps d with
      | some (.ok (), d) => addEach f qs d
      | stopped => stopped := by
  induction ps generalizing d with
  | nil => rfl
  | cons p ps ih =>
    rw [List.cons_append, addEach, addEach]
    cases f p d with
    | none => rfl
    | some out =>
      obtain ⟨r, d⟩ := out
      cases r with
      | error e => rfl
      | ok _ => exact ih d

theorem addEach_mono {f g : Path → Discovery → Option (Except FileError Unit × Discovery)}
    (hfg : ∀ p d out, f p d = some out → g p d = some out) (h : addEach f ps d = some out) :
    addEach g ps d = some out := by
  induction ps generalizing d with
  | nil => exact h
  | cons p ps ih =>
    rw [addEach] at h ⊢
    cases hp : f p d with
    | none => simp [hp] at h
    | some out' =>
      rw [hfg p d out' hp]
      rw [hp] at h
      obtain ⟨r, d⟩ := out'
      cases r with
      | error e => exact h
      | ok _ => exact ih h

/-- A search that may follow longer chains of references comes to the same end. -/
theorem add_succ (h : add fs cwd depth p d = some out) : add fs cwd (depth + 1) p d = some out := by
  induction depth generalizing p d out with
  | zero => cases h
  | succ depth ih =>
    rw [add] at h ⊢
    cases hv : (visit fs cwd d.visited p).result with
    | error e =>
      rw [hv] at h
      exact h
    | ok refs =>
      rw [hv] at h
      exact addEach_mono (fun _ _ _ => ih) h

theorem add_mono {depth' : Nat} (hle : depth ≤ depth') (h : add fs cwd depth p d = some out) :
    add fs cwd depth' p d = some out := by
  induction hle with
  | refl => exact h
  | step _ ih => exact add_succ ih

/-- What the loop makes of a stack, the recursion makes of its paths one after the other. A chain of
references is no longer than the loop has turns. -/
theorem addEach_of_loop (h : loop fs cwd turns ps d = some out) :
    addEach (add fs cwd turns) ps d = some out := by
  induction turns generalizing ps d with
  | zero => cases h
  | succ turns ih =>
    cases ps with
    | nil => exact h
    | cons p ps =>
      rw [loop, turn_cons] at h
      rw [addEach, add]
      cases hv : (visit fs cwd d.visited p).result with
      | error e =>
        rw [hv] at h
        simpa using h
      | ok refs =>
        rw [hv] at h
        have hrest := ih h
        rw [addEach_append] at hrest
        cases hrefs : addEach (add fs cwd turns) refs (d.after (visit fs cwd d.visited p)) with
        | none => simp [hrefs] at hrest
        | some out' =>
          obtain ⟨s, d'⟩ := out'
          rw [hrefs] at hrest
          cases s with
          | error e => simpa [hrefs] using hrest
          | ok _ => simpa [hrefs] using addEach_mono (fun _ _ _ => add_succ) hrest

theorem add_of_loop (h : loop fs cwd turns [p] d = some out) : add fs cwd turns p d = some out := by
  have heach := addEach_of_loop h
  rw [addEach] at heach
  cases hp : add fs cwd turns p d with
  | none => simp [hp] at heach
  | some out' =>
    obtain ⟨r, d'⟩ := out'
    rw [hp] at heach
    cases r with
    | error e => exact heach
    | ok _ => exact heach

/-! ### The same searches -/

/-- The recursion and the loop come to the same ends, each with as many calls or turns as it
needs. -/
theorem add_iff_loop : (∃ depth, add fs cwd depth p d = some (r, d')) ↔
    ∃ turns, loop fs cwd turns [p] d = some (r, d') := by
  constructor
  · rintro ⟨depth, h⟩
    exact (explores_of_add h).exists_loop
  · rintro ⟨turns, h⟩
    exact ⟨turns, add_of_loop h⟩

/-- A run over a path is the search for it, if chains of references may be long enough. -/
theorem Explores.exists_add (h : Explores fs cwd [p] d r d') :
    ∃ N, ∀ depth, N ≤ depth → add fs cwd depth p d = some (r, d') := by
  obtain ⟨turns, hloop⟩ := h.exists_loop
  exact ⟨turns, fun depth hle => add_mono hle (add_of_loop hloop)⟩

end ModuleDeps.Discovery
