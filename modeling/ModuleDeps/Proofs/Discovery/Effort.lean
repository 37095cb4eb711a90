import Mathlib.Data.Set.Card
import ModuleDeps.Proofs.Discovery.Termination
import ModuleDeps.Proofs.Discovery.Worklist

/-!
# What a search costs

A search looks up each place at most once, and no place that was visited when it started
(`LooksOnce`). A place that it looks up is visited from then on, or the search fails there and looks
up nothing more; so what one visit looks up is new to it, and what the rest of the run looks up is
new to both. Only places with something there lead on to others, so over finitely many of them a
search comes to an end, and a chain of calls is at most one longer than there are such places
(`add_looks_once`).
-/

namespace ModuleDeps

/-- The places that are looked up. -/
def Action.lookups (actions : List Action) : List Path :=
  actions.filterMap fun | stat p => some p | _ => none

@[simp] theorem Action.lookups_append (as bs : List Action) :
    Action.lookups (as ++ bs) = Action.lookups as ++ Action.lookups bs := List.filterMap_append

@[simp] theorem lookups_readActions (f : ModuleMapFile) :
    Action.lookups (readActions f) = [f.absPath] := rfl

/-- No place is looked up twice, or although it was visited before, and none is read that was not
looked up. -/
structure LooksOnce (visited : List Path) (actions : List Action) : Prop where
  nodup : (Action.lookups actions).Nodup
  fresh : ∀ q ∈ Action.lookups actions, q ∉ visited
  reads_sublist : (Action.reads actions).Sublist (Action.lookups actions)

variable {fs : FileSystem} {cwd p : Path} {visited : List Path}

theorem looksOnce_nil (visited : List Path) : LooksOnce visited [] :=
  ⟨List.nodup_nil, nofun, .slnil⟩

theorem looksOnce_log (visited : List Path) (e : LogEntry) : LooksOnce visited [.log e] :=
  ⟨List.nodup_nil, nofun, .slnil⟩

theorem looksOnce_stat {q : Path} (h : q ∉ visited) : LooksOnce visited [.stat q] :=
  ⟨List.nodup_singleton q, by simpa [Action.lookups] using h, List.nil_sublist _⟩

theorem looksOnce_readActions {f : ModuleMapFile} (h : f.absPath ∉ visited) :
    LooksOnce visited (readActions f) :=
  ⟨List.nodup_singleton _, by simpa using h, .refl _⟩

/-- What is looked up later is new to what was looked up before. -/
theorem LooksOnce.append {as bs : List Action} (h : LooksOnce visited as)
    (h' : LooksOnce (visited ++ Action.lookups as) bs) : LooksOnce visited (as ++ bs) := by
  have hnew : ∀ q ∈ Action.lookups bs, q ∉ visited ∧ q ∉ Action.lookups as := fun q hq => by
    simpa using h'.fresh q hq
  refine ⟨?_, fun q hq => ?_, ?_⟩
  · rw [Action.lookups_append]
    exact h.nodup.append h'.nodup fun q has hbs => (hnew q hbs).2 has
  · rw [Action.lookups_append, List.mem_append] at hq
    exact hq.elim (h.fresh q) fun hq => (hnew q hq).1
  · rw [Action.reads_append, Action.lookups_append]
    exact h.reads_sublist.append h'.reads_sublist

/-- A failure is reported after all that was looked up. -/
theorem LooksOnce.failure {e : FileError} {file? : Option ModuleMapFile} {actions : List Action}
    (h : LooksOnce visited actions) : LooksOnce visited (Visit.failure e file? actions).actions :=
  h.append (looksOnce_log _ _)

/-! ### One visit -/

theorem Visits.looksOnce {v : Visit} (h : Visits fs cwd visited p v) :
    LooksOnce visited v.actions := by
  cases h with
  | notText => exact (looksOnce_nil visited).failure
  | again => exact looksOnce_log _ _
  | missing _ hv => exact (looksOnce_stat hv).failure
  | directory _ hv => exact (looksOnce_stat hv).failure
  | unreadable hf => exact (looksOnce_readActions hf.fresh).failure
  | expanded hf => exact looksOnce_readActions hf.fresh

/-- A visit that goes on looks up the file that it finds. -/
theorem Visits.lookups_actions {v : Visit} {refs : List Path} (h : Visits fs cwd visited p v)
    (hr : v.result = .ok refs) : Action.lookups v.actions = v.file?.toList.map (·.absPath) := by
  cases h with
  | notText | missing | directory | unreadable => cases hr
  | again => rfl
  | expanded => rfl

/-! ### The search -/

namespace Discovery

/-- A run adds actions that look up each place once, and none that was visited when it started. -/
theorem Explores.looksOnce {ps : List Path} {d d' : Discovery} {r : Except FileError Unit}
    (h : Explores fs cwd ps d r d') :
    ∃ more, d'.actions = d.actions ++ more ∧ LooksOnce d.visited more := by
  obtain ⟨-, more, -, hmore, honce⟩ := h.accumulates (fun visited _ _ more => LooksOnce visited more)
    looksOnce_nil (fun _ _ _ _ hvisit _ => hvisit.looksOnce)
    fun _ _ _ _ _ _ _ hvisit hr hrest =>
      hvisit.looksOnce.append (by rwa [hvisit.lookups_actions hr])
  exact ⟨more, hmore, honce⟩

/-- **A search ends and looks at each place once**: over a file system with finitely many places
where something is, a search from any state comes to an end, with chains of calls that are at most
one longer than there are such places. It looks up each place at most once and none that was visited
before, and reads each at most once. -/
theorem add_looks_once (h : fs.places.Finite) (cwd p : Path) (d : Discovery) :
    ∃ r d' more, (∀ depth, fs.places.ncard + 1 ≤ depth → add fs cwd depth p d = some (r, d')) ∧
      d'.actions = d.actions ++ more ∧ (Action.lookups more).Nodup ∧ (Action.reads more).Nodup ∧
      ∀ q ∈ Action.lookups more, q ∉ d.visited := by
  have hunseen : (unseen h.toFinset d.visited).card < fs.places.ncard + 1 := by
    rw [Set.ncard_eq_toFinset_card _ h, Nat.lt_succ_iff]
    exact Finset.card_le_card Finset.sdiff_subset
  obtain ⟨⟨r, d'⟩, hrun⟩ := Option.isSome_iff_exists.mp
    (add_isSome (bounds_places h cwd p) .root hunseen)
  obtain ⟨more, hmore, honce⟩ := (explores_of_add hrun).looksOnce
  exact ⟨r, d', more, fun depth hdepth => add_mono hdepth hrun, hmore, honce.nodup,
    honce.nodup.sublist honce.reads_sublist, honce.fresh⟩

/-- Two of four files name a third one, which names the first again and then a file that was visited
before and one that is not there. -/
theorem add_looks_once_diamond :
    let fs := FileSystem.holding ⟨0, 0, by decide⟩ ⟨9, 0, by decide⟩
      [(.ofString "/w/a", "extern module b \"b\" extern module c \"c\""),
        (.ofString "/w/b", "extern module d \"./d\""),
        (.ofString "/w/d", "extern module a \"a\" extern module e \"e\""), (.ofString "/w/e", ""),
        (.ofString "/w/c", "extern module d \"d\" extern module f \"f\"")]
    let d : Discovery := { visited := [.ofString "/w/e", .ofString "/w/e"] }
    ∃ d' more, add fs (.ofString "/w") 6 (.ofString "a") d =
        some (.error (.missing (.ofString "/w/f")), d') ∧
      d'.actions = d.actions ++ more ∧
      Action.lookups more = [.ofString "/w/a", .ofString "/w/b", .ofString "/w/d",
        .ofString "/w/c", .ofString "/w/f"] ∧
      (Action.lookups more).Nodup ∧ (Action.reads more).Nodup ∧
      ∀ q ∈ Action.lookups more, q ∉ d.visited := by
  intro fs d
  obtain ⟨r, d', more, hends, hmore, honce⟩ :=
    add_looks_once (finite_places_holding _ _ _ : fs.places.Finite) (.ofString "/w")
      (.ofString "a") d
  have hrun := hends 6 (Nat.succ_le_succ (ncard_places_holding_le _ _ _))
  have hseen : (add fs (.ofString "/w") 6 (.ofString "a") d).map
      (fun out => (out.1, Action.lookups out.2.actions)) =
        some (.error (.missing (.ofString "/w/f")), [.ofString "/w/a", .ofString "/w/b",
          .ofString "/w/d", .ofString "/w/c", .ofString "/w/f"]) := by
    decide +kernel
  rw [hrun, Option.map_some, Option.some.injEq, Prod.mk.injEq, hmore] at hseen
  obtain ⟨rfl, hlookups⟩ := hseen
  exact ⟨d', more, hrun, hmore, hlookups, honce⟩

end Discovery

end ModuleDeps
