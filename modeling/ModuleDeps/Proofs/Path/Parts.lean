import ModuleDeps.Discovery
import ModuleDeps.Proofs.Path.Place

/-!
# What paths hand on to their parts

A path is cut at slashes and put together again with slashes and dots. So whatever holds of slashes
and dots, and of bytes just when it holds of what is on both sides of a slash in them, holds of all
paths that are made of paths it holds of. Being text is such a property, and so is being free of
some other byte.
-/

namespace ModuleDeps.Path

theorem mem_of_mem_dropFiller {ns : List Name} {n : Name} (h : n ∈ dropFiller ns) : n ∈ ns := by
  rw [dropFiller, List.mem_reverse] at h
  exact List.mem_reverse.mp (List.dropWhile_sublist _ |>.mem h)

/-- A property of bytes that slashes and dots have, and that bytes with a slash have just when what
is on both sides of it does. -/
structure Cuttable (P : List UInt8 → Prop) : Prop where
  slash : P [Path.slash]
  dot : P [Path.dot]
  append {xs ys : List UInt8} (hx : P xs) (hy : P ys) : P (xs ++ ys)
  cut {xs ys : List UInt8} (h : P (xs ++ Path.slash :: ys)) : P xs ∧ P ys

namespace Cuttable

variable {P : List UInt8 → Prop}

theorem nil (hP : Cuttable P) : P [] := (hP.cut (show P ([] ++ [Path.slash]) from hP.slash)).1

theorem joinNames_iff (hP : Cuttable P) {ns : List Name} : P (joinNames ns) ↔ ∀ n ∈ ns, P n := by
  induction ns with
  | nil => simpa [joinNames] using hP.nil
  | cons n ns ih =>
    cases ns with
    | nil => simp [joinNames]
    | cons m ns =>
      have hs : joinNames (n :: m :: ns) = n ++ Path.slash :: joinNames (m :: ns) := by
        simp [joinNames, List.intercalate_cons_cons]
      rw [hs, List.forall_mem_cons, ← ih]
      constructor
      · exact hP.cut
      · rintro ⟨hn, hns⟩
        exact hP.append hn (hP.append hP.slash hns)

theorem anchor (hP : Cuttable P) (a : Anchor) : P a.bytes := by
  cases a with
  | none => exact hP.nil
  | here => exact hP.dot
  | root => exact hP.slash

/-- What follows the anchor has the property if the path has it. -/
theorem drop_anchor (hP : Cuttable P) {p : Path} (h : P p.bytes) :
    P (p.bytes.drop p.anchor.bytes.length) := by
  obtain ⟨bs⟩ := p
  cases bs with
  | nil => exact hP.nil
  | cons b bs =>
    simp only [Path.anchor]
    split_ifs with hs hd
    · subst hs
      exact (hP.cut (show P ([] ++ Path.slash :: bs) from h)).2
    · obtain ⟨rfl, hh⟩ := hd
      cases bs with
      | nil => exact hP.nil
      | cons c bs =>
        obtain rfl : c = Path.slash := by simpa using hh
        exact hP.append hP.slash (hP.cut (show P ([Path.dot] ++ Path.slash :: bs) from h)).2
    · exact h

theorem of_mem_pieces (hP : Cuttable P) {p : Path} (h : P p.bytes) {n : Name} (hn : n ∈ p.pieces) :
    P n := by
  have hj : P (joinNames p.pieces) := by
    rw [joinNames, pieces, List.intercalate_splitOn]
    exact hP.drop_anchor h
  exact hP.joinNames_iff.mp hj n hn

theorem dirname (hP : Cuttable P) {p : Path} (h : P p.bytes) : P p.dirname.bytes := by
  unfold Path.dirname
  split
  · exact hP.nil
  · rename_i n ns hp
    refine hP.append (hP.anchor p.anchor) (hP.joinNames_iff.mpr fun m hm => ?_)
    have hm := List.dropLast_subset _ (mem_of_mem_dropFiller hm)
    exact hP.of_mem_pieces h (mem_of_mem_dropFiller (hp ▸ hm))

theorem join (hP : Cuttable P) {base rel : Path} (hb : P base.bytes) (hr : P rel.bytes) :
    P (base.join rel).bytes := by
  unfold Path.join
  split_ifs
  · exact hr
  · exact hP.append hb hr
  · exact hP.append hb (hP.append hP.slash hr)

theorem resolve (hP : Cuttable P) {p : Path} (h : P p.bytes) : P p.resolve.bytes := by
  have hnames : P (joinNames p.resolvedNames) := by
    refine hP.joinNames_iff.mpr (forall_mem_resolvedNames (hP.append hP.dot hP.dot) fun n hn => ?_)
    exact hP.of_mem_pieces h (List.mem_of_mem_filter hn)
  unfold Path.resolve
  split_ifs
  · exact hP.append hP.slash hnames
  · exact hP.dot
  · exact hnames

theorem seenFrom (hP : Cuttable P) {cwd p : Path} (hcwd : P cwd.bytes) (hp : P p.bytes) :
    P (Path.seenFrom cwd p).bytes :=
  hP.resolve (hP.join hcwd hp)

/-- What a module map refers to has the property if the path of the module map and the name have
it. -/
theorem reference (hP : Cuttable P) {p : Path} (h : P p.bytes) {filename : String}
    (hname : P (ofString filename).bytes) : P (p.reference filename).bytes :=
  hP.join (hP.dirname h) hname

theorem and {Q : List UInt8 → Prop} (hP : Cuttable P) (hQ : Cuttable Q) :
    Cuttable fun bs => P bs ∧ Q bs where
  slash := ⟨hP.slash, hQ.slash⟩
  dot := ⟨hP.dot, hQ.dot⟩
  append hx hy := ⟨hP.append hx.1 hy.1, hQ.append hx.2 hy.2⟩
  cut h := ⟨⟨(hP.cut h.1).1, (hQ.cut h.2).1⟩, (hP.cut h.1).2, (hQ.cut h.2).2⟩

end Cuttable

/-- Free of a byte other than a slash and a dot. -/
theorem cuttable_not_mem {b : UInt8} (hslash : b ≠ slash) (hdot : b ≠ dot) :
    Cuttable (b ∉ ·) where
  slash := by simpa using hslash
  dot := by simpa using hdot
  append hx hy := by simpa using ⟨hx, hy⟩
  cut h := by
    rw [List.mem_append, List.mem_cons, not_or, not_or] at h
    exact ⟨h.1, h.2.2⟩

end ModuleDeps.Path
