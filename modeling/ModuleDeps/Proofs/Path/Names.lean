import ModuleDeps.Path.Resolve
import Mathlib.Data.List.Basic

/-!
# The names of a path

What a path leads to is decided by two things: whether it starts at the root, and its names. This
module says what the operations on paths do to the two, so that nothing later has to look at bytes:
joining puts names behind names (`names_join`), the tidy form keeps them (`names_tidy`), and paths
that agree in both resolve to the same path (`resolve_congr`).
-/

namespace ModuleDeps.Path

/-- A name that stands for itself: not empty, not a dot, and without slashes. -/
def IsName (n : Name) : Prop := n ≠ [] ∧ n ≠ [dot] ∧ slash ∉ n

/-! ### The two parts that matter -/

theorem anchor_cons_slash (bs : List UInt8) : anchor ⟨slash :: bs⟩ = .root := by simp [anchor]

theorem isAbsolute_iff {p : Path} : p.isAbsolute = true ↔ ∃ bs, p.bytes = slash :: bs := by
  obtain ⟨bs⟩ := p
  cases bs with
  | nil => simp [isAbsolute, anchor]
  | cons b bs =>
    by_cases hb : b = slash
    · subst hb; simp [isAbsolute, anchor_cons_slash]
    · simp only [isAbsolute, anchor, hb, if_false, List.cons.injEq, false_and, exists_false,
        iff_false]
      split_ifs <;> simp

@[simp] theorem isAbsolute_cons (b : UInt8) (bs : List UInt8) :
    isAbsolute ⟨b :: bs⟩ = (b == slash) := by
  rw [Bool.eq_iff_iff, isAbsolute_iff]
  simp

@[simp] theorem isAbsolute_nil : isAbsolute ⟨[]⟩ = false := rfl

/-- The names are read off the whole path: what the anchor spells holds no name. -/
theorem names_eq (p : Path) : p.names = (p.bytes.splitOn slash).filter (!isFiller ·) := by
  obtain ⟨bs⟩ := p
  cases bs with
  | nil => rfl
  | cons b bs =>
    by_cases hb : b = slash
    · subst hb
      have hs : (slash :: bs).splitOn slash = [] :: bs.splitOn slash :=
        List.splitOn_append_cons_self [] bs
      simp [names, pieces, anchor_cons_slash, Anchor.bytes, hs, isFiller]
    · by_cases hd : b = dot ∧ bs.head?.all (· == slash) = true
      · obtain ⟨rfl, hh⟩ := hd
        cases bs with
        | nil => rfl
        | cons c bs =>
          obtain rfl : c = slash := by simpa using hh
          have h₁ : (slash :: bs).splitOn slash = [] :: bs.splitOn slash :=
            List.splitOn_append_cons_self [] bs
          have h₂ : (dot :: slash :: bs).splitOn slash = [dot] :: bs.splitOn slash :=
            List.splitOn_append_cons_self_of_not_mem (show slash ∉ [dot] by decide) bs
          simp [names, pieces, anchor, hb, Anchor.bytes, h₁, h₂, isFiller]
      · simp only [names, pieces, anchor, hb, hd, if_false]
        rfl

@[simp] theorem names_nil : names ⟨[]⟩ = [] := rfl

/-- A slash ends the name in front of it. -/
@[simp] theorem names_append_slash (xs ys : List UInt8) :
    names ⟨xs ++ slash :: ys⟩ = names ⟨xs⟩ ++ names ⟨ys⟩ := by
  simp [names_eq, List.splitOn_append_cons_self]

@[simp] theorem names_cons_slash (bs : List UInt8) : names ⟨slash :: bs⟩ = names ⟨bs⟩ := by
  simpa using names_append_slash [] bs

theorem not_mem_of_mem_splitOn {bs n : List UInt8} (h : n ∈ bs.splitOn slash) : slash ∉ n := by
  induction bs generalizing n with
  | nil => simp_all
  | cons b bs ih =>
    rw [List.splitOn_cons_eq_if_modifyHead] at h
    split at h
    · rcases List.mem_cons.mp h with rfl | h
      · simp
      · exact ih h
    · obtain ⟨m, ms, hs⟩ := List.exists_cons_of_ne_nil (List.splitOn_ne_nil slash bs)
      rw [hs] at h ih
      rcases List.mem_cons.mp h with rfl | h
      · rw [List.mem_cons, not_or]
        exact ⟨fun hb => by simp_all, ih List.mem_cons_self⟩
      · exact ih (List.mem_cons_of_mem m h)

theorem isName_of_mem_names {p : Path} {n : Name} (h : n ∈ p.names) : IsName n := by
  rw [names_eq, List.mem_filter] at h
  obtain ⟨hn, hf⟩ := h
  simp only [isFiller, Bool.not_eq_eq_eq_not, Bool.not_true, Bool.or_eq_false_iff,
    beq_eq_false_iff_ne] at hf
  exact ⟨hf.1, hf.2, not_mem_of_mem_splitOn hn⟩

/-- Names with slashes between them are read back. -/
theorem names_joinNames {ns : List Name} (h : ∀ n ∈ ns, IsName n) : names ⟨joinNames ns⟩ = ns := by
  by_cases hns : ns = []
  · subst hns; rfl
  · rw [names_eq, joinNames, List.splitOn_intercalate slash (fun n hn => (h n hn).2.2) hns,
      List.filter_eq_self]
    intro n hn
    simp [isFiller, (h n hn).1, (h n hn).2.1]

/-! ### Joining -/

theorem join_of_isAbsolute {base rel : Path} (hr : rel.isAbsolute = true) : base.join rel = rel :=
  if_pos hr

theorem join_of_not_isAbsolute {base rel : Path} (hr : rel.isAbsolute = false) :
    base.join rel = if base.bytes.getLast?.all (· == slash) then ⟨base.bytes ++ rel.bytes⟩
      else ⟨base.bytes ++ slash :: rel.bytes⟩ :=
  if_neg (by simp [hr])

theorem isAbsolute_join (base rel : Path) :
    (base.join rel).isAbsolute = (rel.isAbsolute || base.isAbsolute) := by
  cases hr : rel.isAbsolute with
  | true => rw [join_of_isAbsolute hr, hr, Bool.true_or]
  | false =>
    obtain ⟨bs⟩ := base
    rw [join_of_not_isAbsolute hr, Bool.false_or]
    cases bs with
    | nil => exact hr
    | cons b bs => split_ifs <;> simp

/-- A relative path puts its names behind those of the directory. -/
theorem names_join {base rel : Path} (hr : rel.isAbsolute = false) :
    (base.join rel).names = base.names ++ rel.names := by
  obtain ⟨bs⟩ := base
  rw [join_of_not_isAbsolute hr]
  split_ifs with h
  · rcases List.eq_nil_or_concat bs with rfl | ⟨bs, b, rfl⟩
    · simp
    · obtain rfl : b = slash := by simpa using h
      simp
  · exact names_append_slash bs rel.bytes

/-! ### The tidy form -/

theorem isAbsolute_joinNames {ns : List Name} (h : ∀ n ∈ ns, slash ∉ n) (hns : ns.head? ≠ some []) :
    isAbsolute ⟨joinNames ns⟩ = false := by
  cases ns with
  | nil => rfl
  | cons n ns =>
    cases n with
    | nil => simp at hns
    | cons b n =>
      have hb : b ≠ slash := by
        have := h (b :: n) List.mem_cons_self
        simp only [List.mem_cons, not_or] at this
        exact Ne.symm this.1
      cases ns with
      | nil => simpa [joinNames] using hb
      | cons m ns => simpa [joinNames, List.intercalate_cons_cons] using hb

theorem names_joinNames_dot {ns : List Name} (h : ∀ n ∈ ns, IsName n) :
    names ⟨joinNames ([dot] :: ns)⟩ = ns := by
  cases ns with
  | nil => rfl
  | cons n ns =>
    have hs : joinNames ([dot] :: n :: ns) = [dot] ++ slash :: joinNames (n :: ns) := by
      simp [joinNames, List.intercalate_cons_cons]
    rw [hs, names_append_slash, names_joinNames h]
    rfl

theorem names_tidy (p : Path) : p.tidy.names = p.names := by
  have h : ∀ n ∈ p.names, IsName n := fun n => isName_of_mem_names
  unfold tidy
  cases p.anchor with
  | none => exact names_joinNames h
  | here => exact names_joinNames_dot h
  | root => simpa using names_joinNames h

theorem isAbsolute_tidy (p : Path) : p.tidy.isAbsolute = p.isAbsolute := by
  have h : ∀ n ∈ p.names, IsName n := fun n => isName_of_mem_names
  unfold tidy
  cases ha : p.anchor with
  | none =>
    rw [isAbsolute_joinNames (fun n hn => (h n hn).2.2), isAbsolute, ha]
    · rfl
    · intro hh
      exact (h [] (List.mem_of_head? hh)).1 rfl
  | here =>
    rw [isAbsolute_joinNames, isAbsolute, ha]
    · rfl
    · intro n hn
      rcases List.mem_cons.mp hn with rfl | hn
      · decide
      · exact (h n hn).2.2
    · simp
  | root => simp [isAbsolute, ha, anchor_cons_slash]

/-! ### Resolving -/

theorem resolve_congr {p q : Path} (ha : p.isAbsolute = q.isAbsolute) (hn : p.names = q.names) :
    p.resolve = q.resolve := by
  unfold resolve resolvedNames
  rw [ha, hn]

end ModuleDeps.Path
