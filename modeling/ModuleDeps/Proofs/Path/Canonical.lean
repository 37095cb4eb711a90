import ModuleDeps.Proofs.Path.Place

/-!
# Resolved paths are canonical

Where a path leads to from a directory can be said without resolving it: piece by piece, where `..`
goes up by one name (`destination`). To resolve a path keeps its destination, from every directory
(`destination_resolve`), and leaves one of the spellings of `IsResolved`.

A resolved path says how far to go up and which names to go down from there, and both can be seen in
its destinations, if only the directory is deep enough. So paths with the same destinations have the
same resolved path (`resolve_eq_of_destination`).
-/

namespace ModuleDeps.Path

/-! ### Destinations -/

/-- Goes on by one piece of a path from a directory, whose names are given from the root on. There
is nothing above the root. -/
def follow (dir : List Name) (piece : Name) : List Name :=
  if isFiller piece then dir else if piece = dotDot then dir.dropLast else dir ++ [piece]

/-- The place that the path leads to from the directory. -/
def destination (dir : List Name) (p : Path) : List Name :=
  (p.bytes.splitOn slash).foldl follow (if p.bytes.head? = some slash then [] else dir)

/-- A name that is no dots. -/
def IsOrdinary (n : Name) : Prop := IsName n ∧ n ≠ dotDot

/-- The names are those of a directory, from the root on. -/
def IsDirectory (dir : List Name) : Prop := ∀ n ∈ dir, IsOrdinary n

/-- The spellings of a resolved path. -/
inductive IsResolved : Path → Prop where
  /-- `.`. -/
  | here : IsResolved ⟨[dot]⟩
  /-- `/`. -/
  | root : IsResolved ⟨[slash]⟩
  /-- Names with single slashes between them, behind a slash. -/
  | absolute {ns : List Name} (hne : ns ≠ []) (h : ∀ n ∈ ns, IsOrdinary n) :
      IsResolved ⟨slash :: joinNames ns⟩
  /-- Names with single slashes between them, each `..` in front of all others. -/
  | relative {ups : Nat} {ns : List Name} (hne : List.replicate ups dotDot ++ ns ≠ [])
      (h : ∀ n ∈ ns, IsOrdinary n) : IsResolved ⟨joinNames (List.replicate ups dotDot ++ ns)⟩

/-! ### Names decide the destination -/

theorem follow_of_isFiller {dir : List Name} {piece : Name} (h : isFiller piece = true) :
    follow dir piece = dir := if_pos h

theorem isFiller_of_isName {n : Name} (h : IsName n) : isFiller n = false := by
  simp [isFiller, h.1, h.2.1]

@[simp] theorem follow_dotDot (dir : List Name) : follow dir dotDot = dir.dropLast := rfl

theorem follow_of_isOrdinary {dir : List Name} {n : Name} (h : IsOrdinary n) :
    follow dir n = dir ++ [n] := by
  rw [follow, isFiller_of_isName h.1, if_neg Bool.false_ne_true, if_neg h.2]

theorem foldl_follow_filter (dir : List Name) (ns : List Name) :
    (ns.filter (!isFiller ·)).foldl follow dir = ns.foldl follow dir := by
  induction ns generalizing dir with
  | nil => rfl
  | cons n ns ih =>
    cases h : isFiller n with
    | true =>
      rw [List.filter_cons_of_neg (by simp [h]), List.foldl_cons, follow_of_isFiller h, ih]
    | false => rw [List.filter_cons_of_pos (by simp [h]), List.foldl_cons, List.foldl_cons, ih]

theorem head?_eq_slash_iff (p : Path) : p.bytes.head? = some slash ↔ p.isAbsolute = true := by
  rw [isAbsolute_iff, List.head?_eq_some_iff]

/-- The directory that a path starts from. -/
def start (dir : List Name) (p : Path) : List Name := if p.isAbsolute then [] else dir

theorem destination_eq (dir : List Name) (p : Path) :
    destination dir p = p.names.foldl follow (p.start dir) := by
  rw [destination, names_eq, foldl_follow_filter]
  simp only [head?_eq_slash_iff, start]

/-! ### Resolving keeps the destination -/

/-- To go on from a place is to go on from where the names of the place lead to. -/
theorem foldl_follow_step {isAbsolute : Bool} {place dir : List Name} {n : Name}
    (hplace : ∀ m ∈ place, IsName m) (hn : IsName n) (hdir : isAbsolute = true → dir = []) :
    (step isAbsolute place n).reverse.foldl follow dir =
      follow (place.reverse.foldl follow dir) n := by
  by_cases hdots : n = dotDot
  · subst hdots
    cases place with
    | nil =>
      cases isAbsolute with
      | true => rw [hdir rfl]; rfl
      | false => rfl
    | cons last rest =>
      by_cases hlast : last = dotDot
      · simp [step, hlast]
      · have hlast : IsOrdinary last := ⟨hplace last List.mem_cons_self, hlast⟩
        simp [step, hlast.2, follow_of_isOrdinary hlast]
  · rw [step_of_ne hdots, List.reverse_cons, List.foldl_append]
    rfl

theorem foldl_follow_foldl_step {isAbsolute : Bool} {place dir ns : List Name}
    (hplace : ∀ m ∈ place, IsName m) (hns : ∀ n ∈ ns, IsName n)
    (hdir : isAbsolute = true → dir = []) :
    (ns.foldl (step isAbsolute) place).reverse.foldl follow dir =
      ns.foldl follow (place.reverse.foldl follow dir) := by
  induction ns generalizing place with
  | nil => rfl
  | cons n ns ih =>
    obtain ⟨hn, hns⟩ := List.forall_mem_cons.mp hns
    have hstep : ∀ m ∈ step isAbsolute place n, IsName m := by
      intro m hm
      rcases mem_step hm with rfl | rfl | hm
      · exact hn
      · exact isName_dotDot
      · exact hplace m hm
    rw [List.foldl_cons, ih hstep hns, foldl_follow_step hplace hn hdir, List.foldl_cons]

theorem destination_eq_resolvedNames (dir : List Name) (p : Path) :
    destination dir p = p.resolvedNames.foldl follow (p.start dir) := by
  have hstart (h : p.isAbsolute = true) : p.start dir = [] := if_pos h
  rw [destination_eq, resolvedNames, foldl_follow_foldl_step (List.forall_mem_nil _)
    (fun _ => isName_of_mem_names) hstart]
  rfl

/-- The resolved path leads to where the path leads to. -/
theorem destination_resolve (dir : List Name) (p : Path) :
    destination dir p.resolve = destination dir p := by
  rw [destination_eq, names_resolve, start, isAbsolute_resolve, destination_eq_resolvedNames, start]

/-! ### What is left of the names -/

/-- On the way from the root no `..` is left. -/
theorem isOrdinary_of_mem_step {place : List Name} {n : Name} (hplace : ∀ m ∈ place, IsOrdinary m)
    (hn : IsName n) : ∀ m ∈ step true place n, IsOrdinary m := by
  by_cases hdots : n = dotDot
  · subst hdots
    cases place with
    | nil => exact hplace
    | cons last rest =>
      obtain ⟨hlast, hrest⟩ := List.forall_mem_cons.mp hplace
      simpa [step, hlast.2] using hrest
  · rw [step_of_ne hdots]
    exact List.forall_mem_cons.mpr ⟨⟨hn, hdots⟩, hplace⟩

theorem isOrdinary_of_mem_foldl_step {ns place : List Name} (hns : ∀ n ∈ ns, IsName n)
    (hplace : ∀ m ∈ place, IsOrdinary m) : ∀ m ∈ ns.foldl (step true) place, IsOrdinary m := by
  induction ns generalizing place with
  | nil => exact hplace
  | cons n ns ih =>
    obtain ⟨hn, hns⟩ := List.forall_mem_cons.mp hns
    exact ih hns (isOrdinary_of_mem_step hplace hn)

theorem isOrdinary_of_mem_resolvedNames {p : Path} (hp : p.isAbsolute = true) :
    ∀ n ∈ p.resolvedNames, IsOrdinary n := by
  intro n hn
  rw [resolvedNames, hp, List.mem_reverse] at hn
  exact isOrdinary_of_mem_foldl_step (fun _ => isName_of_mem_names)
    (List.forall_mem_nil _) n hn

/-- The names of a place below one that is some names up, last first. -/
def IsBelow (ups : Nat) (ns place : List Name) : Prop :=
  place = ns ++ List.replicate ups dotDot ∧ ∀ n ∈ ns, IsOrdinary n

theorem exists_isBelow_step {place : List Name} {n : Name} (h : ∃ ups ns, IsBelow ups ns place)
    (hn : IsName n) : ∃ ups ns, IsBelow ups ns (step false place n) := by
  obtain ⟨ups, ns, rfl, hns⟩ := h
  by_cases hdots : n = dotDot
  · subst hdots
    cases ns with
    | nil =>
      refine ⟨ups + 1, [], ?_, nofun⟩
      cases ups with
      | zero => rfl
      | succ ups => simp [step, List.replicate_succ]
    | cons last ns =>
      obtain ⟨hlast, hns⟩ := List.forall_mem_cons.mp hns
      exact ⟨ups, ns, by simp [step, hlast.2], hns⟩
  · exact ⟨ups, n :: ns, step_of_ne hdots, List.forall_mem_cons.mpr ⟨⟨hn, hdots⟩, hns⟩⟩

theorem exists_isBelow_foldl_step {ns place : List Name} (hns : ∀ n ∈ ns, IsName n)
    (h : ∃ ups ms, IsBelow ups ms place) :
    ∃ ups ms, IsBelow ups ms (ns.foldl (step false) place) := by
  induction ns generalizing place with
  | nil => exact h
  | cons n ns ih =>
    obtain ⟨hn, hns⟩ := List.forall_mem_cons.mp hns
    exact ih hns (exists_isBelow_step h hn)

/-- In front of the names of a relative path some `..` are left. -/
theorem exists_resolvedNames_eq {p : Path} (hp : p.isAbsolute = false) :
    ∃ ups ns, p.resolvedNames = List.replicate ups dotDot ++ ns ∧ ∀ n ∈ ns, IsOrdinary n := by
  have hnil : IsBelow 0 [] [] := ⟨rfl, nofun⟩
  obtain ⟨ups, ns, hplace, hns⟩ :=
    exists_isBelow_foldl_step (fun _ => isName_of_mem_names (p := p)) ⟨0, [], hnil⟩
  refine ⟨ups, ns.reverse, ?_, fun n hn => hns n (List.mem_reverse.mp hn)⟩
  rw [resolvedNames, hp, hplace, List.reverse_append, List.reverse_replicate]

theorem isResolved_resolve (p : Path) : p.resolve.IsResolved := by
  cases hp : p.isAbsolute with
  | true =>
    rw [resolve, if_pos hp]
    by_cases hnil : p.resolvedNames = []
    · rw [hnil]
      exact .root
    · exact .absolute hnil (isOrdinary_of_mem_resolvedNames hp)
  | false =>
    obtain ⟨ups, ns, hnames, hns⟩ := exists_resolvedNames_eq hp
    rw [resolve, hp, if_neg Bool.false_ne_true]
    split_ifs with hnil
    · exact .here
    · rw [hnames] at hnil ⊢
      exact .relative hnil hns

/-! ### Paths with the same destinations -/

theorem foldl_follow_of_isOrdinary {ns : List Name} (h : ∀ n ∈ ns, IsOrdinary n)
    (dir : List Name) : ns.foldl follow dir = dir ++ ns := by
  induction ns generalizing dir with
  | nil => exact (List.append_nil dir).symm
  | cons n ns ih =>
    obtain ⟨hn, hns⟩ := List.forall_mem_cons.mp h
    rw [List.foldl_cons, follow_of_isOrdinary hn, ih hns, List.append_assoc, List.singleton_append]

theorem foldl_follow_replicate (ups depth : Nat) (n : Name) :
    (List.replicate ups dotDot).foldl follow (List.replicate depth n) =
      List.replicate (depth - ups) n := by
  induction ups generalizing depth with
  | zero => rfl
  | succ ups ih =>
    rw [List.replicate_succ, List.foldl_cons, follow_dotDot, List.dropLast_replicate, ih,
      Nat.sub_sub, Nat.add_comm]

theorem destination_of_isAbsolute {p : Path} (hp : p.isAbsolute = true) (dir : List Name) :
    destination dir p = p.resolvedNames := by
  rw [destination_eq_resolvedNames, start, if_pos hp,
    foldl_follow_of_isOrdinary (isOrdinary_of_mem_resolvedNames hp), List.nil_append]

/-- From a directory of equal names a relative path shows how many of them it leaves. -/
theorem destination_replicate {p : Path} (hp : p.isAbsolute = false) {ups : Nat} {ns : List Name}
    (hnames : p.resolvedNames = List.replicate ups dotDot ++ ns) (hns : ∀ n ∈ ns, IsOrdinary n)
    (depth : Nat) (n : Name) :
    destination (List.replicate depth n) p = List.replicate (depth - ups) n ++ ns := by
  rw [destination_eq_resolvedNames, start, hp, if_neg Bool.false_ne_true, hnames,
    List.foldl_append, foldl_follow_replicate, foldl_follow_of_isOrdinary hns]

/-- Names behind copies of one name are found by looking at copies of two. -/
theorem eq_of_replicate_append {a b : Name} (hab : a ≠ b) {i j : Nat} {xs ys : List Name}
    (ha : List.replicate i a ++ xs = List.replicate j a ++ ys)
    (hb : List.replicate i b ++ xs = List.replicate j b ++ ys) : i = j ∧ xs = ys := by
  induction i generalizing j with
  | zero =>
    cases j with
    | zero => exact ⟨rfl, ha⟩
    | succ j =>
      rw [show xs = a :: (List.replicate j a ++ ys) from ha] at hb
      exact absurd (List.cons.inj hb).1 hab
  | succ i ih =>
    cases j with
    | zero =>
      rw [show ys = a :: (List.replicate i a ++ xs) from ha.symm] at hb
      exact absurd (List.cons.inj hb).1.symm hab
    | succ j =>
      obtain ⟨rfl, rfl⟩ := ih (List.cons.inj ha).2 (List.cons.inj hb).2
      exact ⟨rfl, rfl⟩

theorem isDirectory_replicate (depth : Nat) {b : UInt8} (hd : b ≠ dot) (hs : slash ≠ b) :
    IsDirectory (List.replicate depth [b]) := by
  intro n hn
  rw [List.eq_of_mem_replicate hn]
  refine ⟨⟨List.cons_ne_nil b [], ?_, by simpa using hs⟩, by simp [dotDot]⟩
  simpa using hd

/-- **Paths that lead to the same places resolve to the same path.** -/
theorem resolve_eq_of_destination {p q : Path}
    (h : ∀ dir, IsDirectory dir → destination dir p = destination dir q) :
    p.resolve = q.resolve := by
  -- the names `a` and `b` tell what is left of the directory from what is spelled in the path
  have ha (depth : Nat) := h _ (isDirectory_replicate depth (b := 0x61) (by decide) (by decide))
  have hb (depth : Nat) := h _ (isDirectory_replicate depth (b := 0x62) (by decide) (by decide))
  have hab : [0x61] ≠ ([0x62] : Name) := by decide
  cases hp : p.isAbsolute with
  | true =>
    cases hq : q.isAbsolute with
    | true =>
      have := ha 0
      rw [destination_of_isAbsolute hp, destination_of_isAbsolute hq] at this
      exact resolve_eq_iff.mpr ⟨hp.trans hq.symm, this⟩
    | false =>
      obtain ⟨ups, ns, hnames, hns⟩ := exists_resolvedNames_eq hq
      have ha := ha (ups + 1)
      have hb := hb (ups + 1)
      rw [destination_of_isAbsolute hp, destination_replicate hq hnames hns] at ha hb
      have := (eq_of_replicate_append (i := 0) hab ha hb).1
      omega
  | false =>
    obtain ⟨ups, ns, hnames, hns⟩ := exists_resolvedNames_eq hp
    cases hq : q.isAbsolute with
    | true =>
      have ha := ha (ups + 1)
      have hb := hb (ups + 1)
      rw [destination_of_isAbsolute hq, destination_replicate hp hnames hns] at ha hb
      have := (eq_of_replicate_append (j := 0) hab ha hb).1
      omega
    | false =>
      obtain ⟨ups', ns', hnames', hns'⟩ := exists_resolvedNames_eq hq
      have ha := ha (ups + ups')
      have hb := hb (ups + ups')
      rw [destination_replicate hp hnames hns, destination_replicate hq hnames' hns'] at ha hb
      obtain ⟨hups, rfl⟩ := eq_of_replicate_append hab ha hb
      obtain rfl : ups = ups' := by omega
      exact resolve_eq_iff.mpr ⟨hp.trans hq.symm, hnames.trans hnames'.symm⟩

theorem resolve_eq_iff_destination {p q : Path} :
    p.resolve = q.resolve ↔ ∀ dir, IsDirectory dir → destination dir p = destination dir q := by
  constructor
  · intro h dir _
    rw [← destination_resolve, h, destination_resolve]
  · exact resolve_eq_of_destination

/-- **A resolved path is a canonical name of the place that a path leads to.** It leads to the same
place from every directory and is spelled in one form; two paths have the same resolved path exactly
if they lead to the same place from every directory, and so a resolved path resolves to itself. -/
theorem resolve_canonical :
    (∀ (dir : List Name) (p : Path), destination dir p.resolve = destination dir p) ∧
    (∀ p : Path, p.resolve.IsResolved) ∧
    (∀ p q : Path, p.resolve = q.resolve ↔
      ∀ dir, IsDirectory dir → destination dir p = destination dir q) ∧
    ∀ p : Path, p.resolve.resolve = p.resolve := by
  refine ⟨destination_resolve, isResolved_resolve, fun _ _ => resolve_eq_iff_destination, ?_⟩
  intro p
  exact resolve_eq_of_destination fun dir _ => destination_resolve dir p

example : (ofString "a/./../../b//c/..").resolve = ofString "../b" := by decide

end ModuleDeps.Path
