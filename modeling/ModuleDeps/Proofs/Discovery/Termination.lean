import Mathlib.Data.Set.Card
import ModuleDeps.Proofs.Discovery.Closure

/-!
# Searches come to an end

A chain of references can only go on through files that were not seen before. So it is no longer
than the number of places that the search can come to and where something is, plus one for the path
that ends it, and a search that may follow chains of that length gives an answer
(`dependencies_isSome`).
-/

namespace ModuleDeps

/-- The resolved paths where something is. -/
def FileSystem.places (fs : FileSystem) : Set Path :=
  {q | (∃ p : Path, p.resolve = q) ∧ (fs.stat q).isValid = true}

/-- The places of `S` that were not visited. -/
def unseen (S : Finset Path) (visited : List Path) : Finset Path := S \ visited.toFinset

theorem card_unseen_mono {S : Finset Path} {visited visited' : List Path} (h : visited ⊆ visited') :
    (unseen S visited').card ≤ (unseen S visited).card := by
  apply Finset.card_le_card
  intro q hq
  simp only [unseen, Finset.mem_sdiff, List.mem_toFinset] at hq ⊢
  exact ⟨hq.1, fun hv => hq.2 (h hv)⟩

/-- To visit a place is to have one less to see. -/
theorem card_unseen_lt {S : Finset Path} {visited : List Path} {q : Path} (hS : q ∈ S)
    (hq : q ∉ visited) :
    (unseen S (visited ++ [q])).card < (unseen S visited).card := by
  apply Finset.card_lt_card
  refine Finset.ssubset_iff_of_subset (fun r hr => ?_) |>.mpr ⟨q, ?_, ?_⟩
  · simp only [unseen, Finset.mem_sdiff, List.mem_toFinset, List.mem_append] at hr ⊢
    exact ⟨hr.1, fun hv => hr.2 (.inl hv)⟩
  · simp [unseen, hS, hq]
  · simp [unseen]

variable {fs : FileSystem} {cwd root : Path} {S : Finset Path}

/-- The places where something is that a search from `root` may come to are in `S`. -/
def Bounds (fs : FileSystem) (cwd root : Path) (S : Finset Path) : Prop :=
  ∀ p, LeadsTo fs cwd root p → (fs.stat (Path.seenFrom cwd p)).isValid = true →
    Path.seenFrom cwd p ∈ S

namespace Discovery

theorem addEach_isSome {depth : Nat}
    (hadd : ∀ p d, LeadsTo fs cwd root p → (unseen S d.visited).card < depth →
      (add fs cwd depth p d).isSome = true)
    {ps : List Path} (hps : ∀ p ∈ ps, LeadsTo fs cwd root p) {d : Discovery}
    (h : (unseen S d.visited).card < depth) :
    (addEach (add fs cwd depth) ps d).isSome = true := by
  induction ps generalizing d with
  | nil => rfl
  | cons p ps ih =>
    obtain ⟨hp, hps⟩ := List.forall_mem_cons.mp hps
    rw [addEach]
    obtain ⟨⟨r, d'⟩, hd'⟩ := Option.isSome_iff_exists.mp (hadd p d hp h)
    rw [hd']
    cases r with
    | error e => rfl
    | ok _ => exact ih hps ((card_unseen_mono (explores_of_add hd').visited_subset).trans_lt h)

theorem add_isSome (hS : Bounds fs cwd root S) {depth : Nat} {p : Path} {d : Discovery}
    (hp : LeadsTo fs cwd root p) (h : (unseen S d.visited).card < depth) :
    (add fs cwd depth p d).isSome = true := by
  induction depth generalizing p d with
  | zero => omega
  | succ depth ih =>
    have hv := visits_visit fs cwd d.visited p
    rw [add]
    generalize visit fs cwd d.visited p = v at hv
    cases hv with
    | notText | missing | directory | unreadable => rfl
    | again => rfl
    | @expanded f m hf hm =>
      have hm := readModuleMap_eq_ok_iff.mp hm
      refine addEach_isSome (fun _ _ => ih) (fun r hr => ?_) ?_
      · obtain ⟨name, hname, rfl⟩ := List.mem_map.mp hr
        exact .reference hp (hf.absPath_eq ▸ hm) hname
      · -- a file was found, so one place less is left to be seen
        have hmem : f.absPath ∈ S := by
          have hvalid := hf.isValid
          rw [hf.stat_eq] at hvalid
          rw [hf.absPath_eq] at hvalid ⊢
          exact hS p hp hvalid
        have := card_unseen_lt hmem hf.fresh
        simp only [after_visited, Option.toList_some, List.map_cons, List.map_nil]
        omega

end Discovery

/-- A search comes to an end if it may follow chains through all places that it can come to. -/
theorem dependencies_isSome (hS : Bounds fs cwd root S) {depth : Nat} (h : S.card < depth) :
    (dependencies fs cwd depth root).isSome = true := by
  rw [dependencies, Option.isSome_map]
  apply Discovery.add_isSome hS .root
  show (S \ ∅).card < depth
  rw [Finset.sdiff_empty]
  exact h

/-- The places where something is bound each search. -/
theorem bounds_places (h : fs.places.Finite) (cwd root : Path) :
    Bounds fs cwd root h.toFinset :=
  fun p _ hvalid => h.mem_toFinset.mpr ⟨⟨cwd.join p, rfl⟩, hvalid⟩

/-- Where only finitely many places have something, each search comes to an end. -/
theorem exists_dependencies (h : fs.places.Finite) :
    ∃ N, ∀ depth, N ≤ depth → ∀ cwd root, (dependencies fs cwd depth root).isSome = true :=
  ⟨h.toFinset.card + 1, fun _ hd cwd root => dependencies_isSome (bounds_places h cwd root) hd⟩

/-! ### A file system that holds the given files -/

theorem places_holding_subset (mtime now : Moment) (files : List (Path × String)) :
    (FileSystem.holding mtime now files).places ⊆ (files.map (·.1)).toFinset := by
  rintro q ⟨-, hq⟩
  cases hl : files.lookup q with
  | none => simp [FileSystem.holding, hl, FileStat.isValid, FileStat.missing] at hq
  | some content =>
    obtain ⟨l₁, l₂, rfl, -⟩ := List.lookup_eq_some_iff.mp hl
    simp

theorem finite_places_holding (mtime now : Moment) (files : List (Path × String)) :
    (FileSystem.holding mtime now files).places.Finite :=
  (files.map (·.1)).toFinset.finite_toSet.subset (places_holding_subset mtime now files)

/-- It has no more places than there are files. -/
theorem ncard_places_holding_le (mtime now : Moment) (files : List (Path × String)) :
    (FileSystem.holding mtime now files).places.ncard ≤ files.length := by
  have hkeys := Set.ncard_le_ncard (places_holding_subset mtime now files)
    (Finset.finite_toSet _)
  rw [Set.ncard_coe_finset] at hkeys
  exact hkeys.trans ((List.toFinset_card_le _).trans_eq (List.length_map _))

end ModuleDeps
