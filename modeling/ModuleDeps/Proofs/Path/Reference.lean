import ModuleDeps.Proofs.Path.Canonical
import ModuleDeps.Proofs.Path.Directory

/-!
# References from the place of a file

A module map can be named by any path that leads to it, and by the path of the place itself. The
names of its references are taken from the directory part of that path, and where the path ends in
an ordinary name it does not matter which of the two paths it is: the directory part of the place is
the place of the directory part (`EndsInName.resolve_dirname_seenFrom`). So a reference leads to the
same file either way (`EndsInName.resolve_join_dirname`).
-/

namespace ModuleDeps.Path

theorem resolve_resolve (p : Path) : p.resolve.resolve = p.resolve :=
  resolve_eq_of_destination fun dir _ => destination_resolve dir p

/-- Without its last name, the place of a path that ends in a name is the place of its directory
part. -/
theorem EndsInName.resolve_dirname_seenFrom {p : Path} (h : p.EndsInName) (cwd : Path) :
    (seenFrom cwd p).dirname.resolve = seenFrom cwd p.dirname := by
  obtain ⟨habs, n, hnames⟩ := h.resolvedNames_eq cwd
  have hplace : (seenFrom cwd p).names = (seenFrom cwd p.dirname).names ++ [n] := by
    rw [seenFrom, seenFrom, names_resolve, names_resolve, hnames]
  have hne : (seenFrom cwd p).names ≠ [] := by
    rw [hplace]
    exact List.append_ne_nil_of_right_ne_nil _ (List.cons_ne_nil n [])
  calc (seenFrom cwd p).dirname.resolve
      = (seenFrom cwd p.dirname).resolve := by
        apply resolve_congr
        · rw [isAbsolute_dirname hne, seenFrom, seenFrom, isAbsolute_resolve, isAbsolute_resolve, habs]
        · rw [names_dirname, hplace, List.dropLast_concat]
    _ = seenFrom cwd p.dirname := resolve_resolve _

/-- **To take the directory part and to resolve by name commute.** A reference, absolute, relative or
empty, leads to the same place whether it is taken from the directory part of the path that refers to
it, as that path is spelled, or from the directory part of the place that the path leads to. -/
theorem EndsInName.resolve_join_dirname {p : Path} (h : p.EndsInName) (cwd rel : Path) :
    (cwd.join (p.dirname.join rel)).resolve = ((cwd.join p).resolve.dirname.join rel).resolve := by
  have hdir : (cwd.join p.dirname).resolve = (cwd.join p).resolve.dirname.resolve :=
    (h.resolve_dirname_seenFrom cwd).symm
  calc (cwd.join (p.dirname.join rel)).resolve
      = ((cwd.join p.dirname).join rel).resolve := resolve_join_join cwd p.dirname rel
    _ = ((cwd.join p).resolve.dirname.join rel).resolve := resolve_join_congr_resolve hdir rel

/-- From `../a/./b//m/.` in `w`, the reference `../../../c/` leads up out of `w` and on to `../c`. -/
theorem EndsInName.resolve_join_dirname_above :
    EndsInName (ofString "../a/./b//m/.") ∧
    ((ofString "w").join ((ofString "../a/./b//m/.").dirname.join (ofString "../../../c/"))).resolve =
      (((ofString "w").join (ofString "../a/./b//m/.")).resolve.dirname.join
        (ofString "../../../c/")).resolve ∧
    ((ofString "w").join ((ofString "../a/./b//m/.").dirname.join (ofString "../../../c/"))).resolve =
      ofString "../c" := by
  have h : EndsInName (ofString "../a/./b//m/.") :=
    ⟨[dotDot, [0x61], [0x62]], [0x6d], by decide, by decide⟩
  exact ⟨h, h.resolve_join_dirname (ofString "w") (ofString "../../../c/"), by decide⟩

end ModuleDeps.Path
