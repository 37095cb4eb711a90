import ModuleDeps.Proofs.Path.Names

/-!
# The place that a path leads to

The resolved path keeps the two things that decide where a path leads to: whether it starts at the
root, and the names that are left when each `..` took one away (`resolve_eq_iff`). So to go on from
a path is to go on from its resolved path (`resolve_join_congr_resolve`), and it does not matter
whether a path is seen from a directory that is itself seen from another one, or both steps are
spelled in one path (`resolve_join_join`).
-/

namespace ModuleDeps.Path

/-! ### Resolved names -/

theorem isName_dotDot : IsName dotDot := by
  refine ⟨by decide, by decide, by decide⟩

theorem step_of_ne {isAbsolute : Bool} {place : List Name} {n : Name} (h : n ≠ dotDot) :
    step isAbsolute place n = n :: place := if_neg h

theorem mem_step {isAbsolute : Bool} {place : List Name} {n m : Name}
    (h : m ∈ step isAbsolute place n) : m = n ∨ m = dotDot ∨ m ∈ place := by
  unfold step at h
  by_cases hn : n = dotDot
  · rw [if_pos hn] at h
    cases place with
    | nil =>
      cases isAbsolute with
      | true => cases h
      | false => exact .inr (.inl (List.mem_singleton.mp h))
    | cons last rest =>
      by_cases hlast : last = dotDot
      · simp_all
      · simp only [if_neg hlast] at h
        exact .inr (.inr (List.mem_cons_of_mem last h))
  · rw [if_neg hn] at h
    rcases List.mem_cons.mp h with h | h
    · exact .inl h
    · exact .inr (.inr h)

theorem forall_mem_foldl_step {P : Name → Prop} (hdots : P dotDot) {isAbsolute : Bool}
    {ns place : List Name} (hns : ∀ n ∈ ns, P n) (hplace : ∀ n ∈ place, P n) :
    ∀ n ∈ ns.foldl (step isAbsolute) place, P n := by
  induction ns generalizing place with
  | nil => exact hplace
  | cons m ns ih =>
    obtain ⟨hm, hns⟩ := List.forall_mem_cons.mp hns
    refine ih hns fun n hn => ?_
    rcases mem_step hn with rfl | rfl | hn
    · exact hm
    · exact hdots
    · exact hplace n hn

/-- The resolved names are names of the path, and `..`. -/
theorem forall_mem_resolvedNames {P : Name → Prop} (hdots : P dotDot) {p : Path}
    (h : ∀ n ∈ p.names, P n) : ∀ n ∈ p.resolvedNames, P n := by
  intro n hn
  rw [resolvedNames, List.mem_reverse] at hn
  exact forall_mem_foldl_step hdots h (fun m hm => by cases hm) n hn

/-- Without `..`, names are put behind those of the place. -/
theorem foldl_step_of_ne {isAbsolute : Bool} {ns place : List Name} (h : ∀ n ∈ ns, n ≠ dotDot) :
    ns.foldl (step isAbsolute) place = ns.reverse ++ place := by
  induction ns generalizing place with
  | nil => rfl
  | cons n ns ih =>
    obtain ⟨hn, hns⟩ := List.forall_mem_cons.mp h
    rw [List.foldl_cons, step_of_ne hn, ih hns]
    simp

theorem isName_of_mem_resolvedNames {p : Path} : ∀ n ∈ p.resolvedNames, IsName n :=
  forall_mem_resolvedNames isName_dotDot fun _ hn => isName_of_mem_names hn

/-- The names of the resolved path are the resolved names. -/
@[simp] theorem names_resolve (p : Path) : p.resolve.names = p.resolvedNames := by
  have hj := names_joinNames (isName_of_mem_resolvedNames (p := p))
  unfold resolve
  split_ifs with ha hnil
  · rw [names_cons_slash, hj]
  · rw [hnil]
    rfl
  · exact hj

@[simp] theorem isAbsolute_resolve (p : Path) : p.resolve.isAbsolute = p.isAbsolute := by
  have h := isName_of_mem_resolvedNames (p := p)
  unfold resolve
  split_ifs with ha hnil
  · rw [isAbsolute_cons, ha]
    rfl
  · rw [Bool.not_eq_true] at ha
    rw [ha]
    rfl
  · rw [Bool.not_eq_true] at ha
    rw [ha, isAbsolute_joinNames fun n hn => (h n hn).2.2]
    intro hhead
    exact (h [] (List.mem_of_head? hhead)).1 rfl

/-- Two paths lead to the same place if they start alike and have the same names left. -/
theorem resolve_eq_iff {p q : Path} :
    p.resolve = q.resolve ↔ p.isAbsolute = q.isAbsolute ∧ p.resolvedNames = q.resolvedNames := by
  constructor
  · intro h
    rw [← isAbsolute_resolve p, ← isAbsolute_resolve q, ← names_resolve p, ← names_resolve q, h]
    exact ⟨rfl, rfl⟩
  · rintro ⟨ha, hn⟩
    unfold resolve
    rw [ha, hn]

/-! ### Going on from a place -/

/-- Going on from a path starts with the names that are left of it. -/
theorem resolvedNames_join {base rel : Path} (hr : rel.isAbsolute = false) :
    (base.join rel).resolvedNames =
      (rel.names.foldl (step base.isAbsolute) base.resolvedNames.reverse).reverse := by
  rw [resolvedNames, resolvedNames, List.reverse_reverse, names_join hr, List.foldl_append,
    isAbsolute_join, hr, Bool.false_or]

/-- To go on from a path is to go on from the place that it leads to. -/
theorem resolve_join_congr_resolve {base base' : Path} (h : base.resolve = base'.resolve)
    (rel : Path) : (base.join rel).resolve = (base'.join rel).resolve := by
  obtain ⟨ha, hn⟩ := resolve_eq_iff.mp h
  cases hr : rel.isAbsolute with
  | true => rw [join_of_isAbsolute hr, join_of_isAbsolute hr]
  | false =>
    rw [resolve_eq_iff, isAbsolute_join, isAbsolute_join, resolvedNames_join hr,
      resolvedNames_join hr, ha, hn]
    exact ⟨rfl, rfl⟩

/-- Directories with the same tidy form are the same place to look from. -/
theorem resolve_join_congr {base base' : Path} (h : base.tidy = base'.tidy) (rel : Path) :
    (base.join rel).resolve = (base'.join rel).resolve := by
  refine resolve_join_congr_resolve (resolve_congr ?_ ?_) rel
  · rw [← isAbsolute_tidy, h, isAbsolute_tidy]
  · rw [← names_tidy, h, names_tidy]

/-- A directory is as good as its tidy form to look from. -/
theorem resolve_tidy_join (base rel : Path) :
    (base.tidy.join rel).resolve = (base.join rel).resolve := by
  refine resolve_join_congr_resolve (resolve_congr ?_ ?_) rel
  · exact isAbsolute_tidy base
  · exact names_tidy base

/-- A path seen from a directory may be spelled in one with it. -/
theorem resolve_join_join (base dir rel : Path) :
    (base.join (dir.join rel)).resolve = ((base.join dir).join rel).resolve := by
  cases hr : rel.isAbsolute with
  | true => rw [join_of_isAbsolute hr, join_of_isAbsolute hr, join_of_isAbsolute hr]
  | false =>
    cases hd : dir.isAbsolute with
    | true =>
      have ha : (dir.join rel).isAbsolute = true := by rw [isAbsolute_join, hr, hd, Bool.false_or]
      rw [join_of_isAbsolute ha, join_of_isAbsolute hd]
    | false =>
      have ha : (dir.join rel).isAbsolute = false := by rw [isAbsolute_join, hr, hd, Bool.false_or]
      apply resolve_congr
      · rw [isAbsolute_join, ha, isAbsolute_join (base.join dir), isAbsolute_join base dir, hr, hd]
        simp only [Bool.false_or]
      · rw [names_join ha, names_join hr, names_join hr, names_join hd, List.append_assoc]

end ModuleDeps.Path
