import Mathlib.Data.List.DropRight
import ModuleDeps.Discovery
import ModuleDeps.Proofs.Path.Place

/-!
# The directory part of a path

The directory part is cut off the path as it is spelled. It has the names of the path but the last
(`names_dirname`), so where the last name is an ordinary one it leads to the directory of the place
that the path leads to (`seenFrom_dirname_congr`). After `..`, or where the path has no names at
all, it may lead anywhere: `f/x/..` leads to `f`, and its directory part to `f/x`.

What a module map refers to is spelled behind the directory part of its own path. Where that part
leads decides where its references lead (`seenFrom_reference_congr`) and, unless a reference is
spelled by dots alone, where their own directory parts lead (`seenFrom_dirname_reference_congr`).
-/

namespace ModuleDeps.Path

/-! ### Pieces -/

theorem dropFiller_eq_rdropWhile (ns : List Name) : dropFiller ns = ns.rdropWhile isFiller := rfl

theorem filter_dropFiller (ns : List Name) :
    (dropFiller ns).filter (!isFiller ·) = ns.filter (!isFiller ·) := by
  rw [dropFiller, List.filter_reverse]
  conv_rhs => rw [← List.reverse_reverse ns, List.filter_reverse]
  congr 1
  generalize ns.reverse = ms
  induction ms with
  | nil => rfl
  | cons m ms ih => cases h : isFiller m <;> simp [h, ih]

theorem dropFiller_isPrefix (ns : List Name) : dropFiller ns <+: ns := by
  rw [dropFiller_eq_rdropWhile]
  exact List.rdropWhile_prefix isFiller ns

theorem dropFiller_eq_nil_iff {ns : List Name} :
    dropFiller ns = [] ↔ ns.filter (!isFiller ·) = [] := by
  rw [dropFiller_eq_rdropWhile, List.rdropWhile_eq_nil_iff, List.filter_eq_nil_iff]
  simp

theorem isFiller_getLast_dropFiller {ns : List Name} (h : dropFiller ns ≠ []) :
    isFiller ((dropFiller ns).getLast h) = false := by
  simp only [dropFiller_eq_rdropWhile] at h ⊢
  simpa using List.rdropWhile_last_not isFiller ns h

theorem not_mem_of_mem_pieces {p : Path} {n : Name} (h : n ∈ p.pieces) : slash ∉ n :=
  not_mem_of_mem_splitOn h

/-- Behind a dot that stands alone comes a slash, or nothing. -/
theorem head?_pieces_of_here {p : Path} (h : p.anchor = .here) : p.pieces.head? = some [] := by
  obtain ⟨bs⟩ := p
  cases bs with
  | nil => cases h
  | cons b bs =>
    have hpieces : pieces ⟨b :: bs⟩ = bs.splitOn slash := by
      rw [pieces, h]
      rfl
    rw [hpieces]
    simp only [anchor] at h
    split_ifs at h with hb hd
    cases bs with
    | nil => rfl
    | cons c bs =>
      obtain rfl : c = slash := by simpa using hd.2
      rw [show (slash :: bs).splitOn slash = [] :: bs.splitOn slash from
        List.splitOn_append_cons_self [] bs]
      rfl

/-- A path that opens with nothing of note opens with a piece that has a byte. -/
theorem head?_pieces_of_none {p : Path} (h : p.anchor = .none) (hp : p.bytes ≠ []) :
    p.pieces.head? ≠ some [] := by
  obtain ⟨bs⟩ := p
  cases bs with
  | nil => exact absurd rfl hp
  | cons b bs =>
    have hpieces : pieces ⟨b :: bs⟩ = (b :: bs).splitOn slash := by
      rw [pieces, h]
      rfl
    have hb : b ≠ slash := by
      rintro rfl
      rw [anchor_cons_slash] at h
      cases h
    obtain ⟨n, ns, hsplit⟩ := List.exists_cons_of_ne_nil (List.splitOn_ne_nil slash bs)
    rw [hpieces, List.splitOn_cons_eq_if_modifyHead, if_neg (by simpa using hb), hsplit]
    simp

theorem names_joinNames_of_not_mem {ns : List Name} (h : ∀ n ∈ ns, slash ∉ n) :
    names ⟨joinNames ns⟩ = ns.filter (!isFiller ·) := by
  by_cases hns : ns = []
  · subst hns
    rfl
  · rw [names_eq, joinNames, List.splitOn_intercalate slash h hns]

/-- Pieces spelled behind what the path opens with are read back. -/
theorem names_anchor_append {p : Path} {ns : List Name} (h : ns <+: p.pieces) :
    names ⟨p.anchor.bytes ++ joinNames ns⟩ = ns.filter (!isFiller ·) := by
  have hslash : ∀ n ∈ ns, slash ∉ n := fun n hn => not_mem_of_mem_pieces (h.subset hn)
  cases ha : p.anchor with
  | none => exact names_joinNames_of_not_mem hslash
  | root =>
    rw [← names_joinNames_of_not_mem hslash]
    exact names_cons_slash _
  | here =>
    cases ns with
    | nil => rfl
    | cons n ns =>
      -- the first piece is empty, so the dot stays alone
      obtain rfl : n = [] := by
        obtain ⟨more, hmore⟩ := h
        have := head?_pieces_of_here ha
        rw [← hmore] at this
        simpa using this
      have hns : ∀ m ∈ ns, slash ∉ m := fun m hm => hslash m (List.mem_cons_of_mem [] hm)
      cases ns with
      | nil => rfl
      | cons m ns =>
        have hjoin : Anchor.here.bytes ++ joinNames ([] :: m :: ns) =
            [dot] ++ slash :: joinNames (m :: ns) := by
          simp [Anchor.bytes, joinNames, List.intercalate_cons_cons]
        rw [hjoin, names_append_slash, names_joinNames_of_not_mem hns]
        rfl

/-! ### The directory part -/

theorem dirname_of_names_eq_nil {p : Path} (h : p.names = []) : p.dirname = ⟨[]⟩ := by
  have hpieces : dropFiller p.pieces = [] := dropFiller_eq_nil_iff.mpr h
  rw [dirname, hpieces]

/-- A path with names is cut behind the last piece but one that is a name. -/
theorem exists_dirname_eq {p : Path} (h : p.names ≠ []) :
    ∃ ns last, ns ++ [last] <+: p.pieces ∧ isFiller last = false ∧
      p.names = ns.filter (!isFiller ·) ++ [last] ∧
      p.dirname = ⟨p.anchor.bytes ++ joinNames (dropFiller ns)⟩ := by
  have hne : dropFiller p.pieces ≠ [] := fun hnil => h (dropFiller_eq_nil_iff.mp hnil)
  have hlast := isFiller_getLast_dropFiller hne
  have hsplit := List.dropLast_append_getLast hne
  refine ⟨(dropFiller p.pieces).dropLast, (dropFiller p.pieces).getLast hne, ?_, hlast, ?_, ?_⟩
  · rw [hsplit]
    exact dropFiller_isPrefix p.pieces
  · rw [names, ← filter_dropFiller]
    conv_lhs => rw [← hsplit]
    simp [hlast]
  · rw [dirname]
    split
    · exact absurd ‹_› hne
    · rename_i heq
      rw [heq]

theorem names_dirname (p : Path) : p.dirname.names = p.names.dropLast := by
  by_cases h : p.names = []
  · rw [dirname_of_names_eq_nil h, h]
    rfl
  · obtain ⟨ns, last, hprefix, -, hnames, hdir⟩ := exists_dirname_eq h
    have hns : dropFiller ns <+: p.pieces :=
      (dropFiller_isPrefix ns).trans ((List.prefix_append ns [last]).trans hprefix)
    rw [hdir, names_anchor_append hns, filter_dropFiller, hnames, List.dropLast_concat]

theorem isAbsolute_dirname {p : Path} (h : p.names ≠ []) :
    p.dirname.isAbsolute = p.isAbsolute := by
  obtain ⟨ns, last, hprefix, hlast, hnames, hdir⟩ := exists_dirname_eq h
  have hns : dropFiller ns <+: p.pieces :=
    (dropFiller_isPrefix ns).trans ((List.prefix_append ns [last]).trans hprefix)
  rw [hdir]
  cases ha : p.anchor with
  | root =>
    rw [show p.isAbsolute = true by rw [isAbsolute, ha]; rfl]
    exact isAbsolute_cons slash _
  | here =>
    rw [show p.isAbsolute = false by rw [isAbsolute, ha]; rfl]
    exact isAbsolute_cons dot _
  | none =>
    have hp : p.bytes ≠ [] := by
      intro hnil
      obtain ⟨bs⟩ := p
      exact h (by rw [show bs = [] from hnil]; rfl)
    have hhead : (dropFiller ns).head? ≠ some [] := by
      intro hhead
      obtain ⟨more, hmore⟩ := hns
      apply head?_pieces_of_none ha hp
      rw [← hmore, List.head?_append, hhead]
      rfl
    rw [show p.isAbsolute = false by rw [isAbsolute, ha]; rfl]
    exact isAbsolute_joinNames (fun n hn => not_mem_of_mem_pieces (hns.subset hn)) hhead

/-! ### Where the directory part leads -/

/-- The last name of the path is an ordinary one. -/
def EndsInName (p : Path) : Prop := ∃ ns n, p.names = ns ++ [n] ∧ n ≠ dotDot

/-- The path says more than dots do: it starts at the root, or has names. -/
def HasName (p : Path) : Prop := p.isAbsolute = true ∨ p.names ≠ []

/-- An ordinary name at the end is the last one of the place, and the directory part leads to the
place without it. -/
theorem EndsInName.resolvedNames_eq {p : Path} (h : p.EndsInName) (cwd : Path) :
    (cwd.join p).isAbsolute = (cwd.join p.dirname).isAbsolute ∧
      ∃ n, (cwd.join p).resolvedNames = (cwd.join p.dirname).resolvedNames ++ [n] := by
  obtain ⟨ns, n, hnames, hn⟩ := h
  have hne : p.names ≠ [] := by
    rw [hnames]
    exact List.append_ne_nil_of_right_ne_nil ns (List.cons_ne_nil n [])
  have habs := isAbsolute_dirname hne
  have hdir : p.dirname.names = ns := by rw [names_dirname, hnames, List.dropLast_concat]
  refine ⟨by rw [isAbsolute_join, isAbsolute_join, habs], n, ?_⟩
  cases hp : p.isAbsolute with
  | true =>
    rw [join_of_isAbsolute hp, join_of_isAbsolute (habs.trans hp), resolvedNames, resolvedNames,
      hnames, hdir, habs]
    simp [step, hn]
  | false =>
    rw [resolvedNames_join hp, resolvedNames_join (habs.trans hp), hnames, hdir]
    simp [step, hn]

/-- Paths that end in ordinary names and lead to the same place are in the same directory. -/
theorem seenFrom_dirname_congr {cwd p q : Path} (hp : p.EndsInName) (hq : q.EndsInName)
    (h : seenFrom cwd p = seenFrom cwd q) : seenFrom cwd p.dirname = seenFrom cwd q.dirname := by
  obtain ⟨ha, m, hm⟩ := hp.resolvedNames_eq cwd
  obtain ⟨hb, n, hn⟩ := hq.resolvedNames_eq cwd
  obtain ⟨habs, hnames⟩ := resolve_eq_iff.mp h
  rw [hm, hn] at hnames
  exact resolve_eq_iff.mpr ⟨by rw [← ha, ← hb, habs], (List.append_inj' hnames rfl).1⟩

/-! ### References -/

/-- A reference leads to the same file from all paths in the same directory. -/
theorem seenFrom_reference_congr {cwd p q : Path}
    (h : seenFrom cwd p.dirname = seenFrom cwd q.dirname) (name : String) :
    seenFrom cwd (p.reference name) = seenFrom cwd (q.reference name) := by
  simp only [seenFrom, reference, resolve_join_join] at h ⊢
  exact resolve_join_congr_resolve h _

/-- The directory part of a path with names, seen from a directory, is that of the path itself. -/
theorem resolve_dirname_join (cwd dir : Path) {rel : Path} (h : rel.names ≠ []) :
    (cwd.join (dir.join rel).dirname).resolve = (cwd.join (dir.join rel.dirname)).resolve := by
  have habs := isAbsolute_dirname h
  cases hr : rel.isAbsolute with
  | true =>
    rw [show dir.join rel = rel from join_of_isAbsolute hr,
      show dir.join rel.dirname = rel.dirname from join_of_isAbsolute (habs.trans hr)]
  | false =>
    have hnames : (dir.join rel).names = dir.names ++ rel.names := names_join hr
    have hne : (dir.join rel).names ≠ [] := by
      rw [hnames]
      exact List.append_ne_nil_of_right_ne_nil _ h
    have ha : (dir.join rel).dirname.isAbsolute = (dir.join rel.dirname).isAbsolute := by
      rw [isAbsolute_dirname hne, isAbsolute_join, isAbsolute_join, habs]
    have hn : (dir.join rel).dirname.names = (dir.join rel.dirname).names := by
      rw [names_dirname, hnames, names_join (habs.trans hr), names_dirname,
        List.dropLast_append_of_ne_nil h]
    cases hd : (dir.join rel.dirname).isAbsolute with
    | true =>
      rw [join_of_isAbsolute hd, join_of_isAbsolute (ha.trans hd)]
      exact resolve_congr ha hn
    | false =>
      apply resolve_congr
      · rw [isAbsolute_join, isAbsolute_join, ha]
      · rw [names_join hd, names_join (ha.trans hd), hn]

/-- The files that a name refers to from the same directory are in the same directory. -/
theorem seenFrom_dirname_reference_congr {cwd p q : Path} {name : String}
    (h : seenFrom cwd p.dirname = seenFrom cwd q.dirname) (hname : (ofString name).HasName) :
    seenFrom cwd (p.reference name).dirname = seenFrom cwd (q.reference name).dirname := by
  by_cases habs : (ofString name).isAbsolute = true
  · rw [reference, reference, join_of_isAbsolute habs, join_of_isAbsolute habs]
  · have hne : (ofString name).names ≠ [] := hname.resolve_left habs
    simp only [seenFrom, reference] at h ⊢
    rw [resolve_dirname_join cwd _ hne, resolve_dirname_join cwd _ hne, resolve_join_join,
      resolve_join_join]
    exact resolve_join_congr_resolve h _

end ModuleDeps.Path
