import ModuleDeps.FileSystem.Memory
import ModuleDeps.Proofs.Path.Text

/-!
# Keys and counts of files in memory

A table takes two paths for the same file if they have the same key, and a read counts for that key
(`readCount_after`). Keys say less than paths: a backslash becomes a slash, and bytes that are not
text become replacement characters. Resolved paths that are text without backslashes are told apart
by their keys (`resolve_eq_of_keyOf_eq`), and such are all places that are spelled with nothing else
(`IsPlain.reference`, `IsPlain.seenFrom`).
-/

namespace ModuleDeps

namespace Path

/-! ### Plain paths -/

/-- The byte of a backslash. -/
def backslash : UInt8 := 0x5c

/-- The path is text without backslashes. -/
def IsPlain (p : Path) : Prop := p.IsText ∧ backslash ∉ p.bytes

theorem cuttable_isPlain : Cuttable fun bs => Utf8.IsText bs ∧ backslash ∉ bs :=
  cuttable_isText.and (cuttable_not_mem (by decide) (by decide))

theorem IsPlain.reference {p : Path} {name : String} (hp : p.IsPlain)
    (hname : (ofString name).IsPlain) : (p.reference name).IsPlain :=
  cuttable_isPlain.reference hp hname

theorem IsPlain.seenFrom {cwd p : Path} (hcwd : cwd.IsPlain) (hp : p.IsPlain) :
    (Path.seenFrom cwd p).IsPlain :=
  cuttable_isPlain.seenFrom hcwd hp

theorem not_mem_toList_of_not_mem_bytes {s : String} (h : backslash ∉ (ofString s).bytes) :
    '\\' ∉ s.toList := by
  intro hs
  apply h
  rw [ofString, Utf8.encode_eq_flatMap, List.mem_flatMap]
  exact ⟨'\\', hs, by decide⟩

theorem display_ofString (s : String) : (ofString s).display = s := by
  simp [display, ofString, Utf8.display]

end Path

namespace MemoryFiles

/-! ### Keys -/

theorem keyOf_of_isPlain {p : Path} (h : p.IsPlain) : keyOf p = p.tidy := by
  obtain ⟨htext, hback⟩ := h
  obtain ⟨s, hs⟩ := Path.isText_iff_exists.mp htext
  obtain rfl := Path.text?_eq_some_iff.mp hs
  have hmap : (s.map fun c => if c = '\\' then '/' else c) = s := by
    have hchars := Path.not_mem_toList_of_not_mem_bytes hback
    rw [← String.toList_inj, String.toList_map]
    refine List.map_congr_left (fun c hc => if_neg fun heq => ?_) |>.trans (List.map_id _)
    exact hchars (heq ▸ hc)
  rw [keyOf, Path.display_ofString, hmap]

/-- Plain places are told apart by their keys. -/
theorem resolve_eq_of_keyOf_eq {p q : Path} (hp : p.resolve.IsPlain) (hq : q.resolve.IsPlain)
    (h : keyOf p.resolve = keyOf q.resolve) : p.resolve = q.resolve := by
  rw [keyOf_of_isPlain hp, keyOf_of_isPlain hq] at h
  rw [Path.resolve_eq_iff]
  constructor
  · rw [← Path.isAbsolute_resolve p, ← Path.isAbsolute_resolve q, ← Path.isAbsolute_tidy, h,
      Path.isAbsolute_tidy]
  · rw [← Path.names_resolve p, ← Path.names_resolve q, ← Path.names_tidy, h, Path.names_tidy]

/-! ### Entries -/

variable {m : MemoryFiles}

/-- There is a file under the path. -/
def IsFile (m : MemoryFiles) (q : Path) : Prop :=
  ∃ content mtime, m.entry? q = some (.file content mtime)

theorem isFile_of_stat {q : Path} (hvalid : (m.stat q).isValid = true)
    (hfile : (m.stat q).isDirectory = false) : m.IsFile q := by
  unfold stat at hvalid hfile
  cases he : m.entry? q with
  | none => simp [he, FileStat.missing, FileStat.isValid] at hvalid
  | some e =>
    cases e with
    | file content mtime => exact ⟨content, mtime, he⟩
    | directory mtime => simp [he] at hfile

theorem keyOf_mem_of_stat {q : Path} (hvalid : (m.stat q).isValid = true) :
    keyOf q ∈ m.entries.map (·.1) := by
  unfold stat at hvalid
  cases he : m.entry? q with
  | none => simp [he, FileStat.missing, FileStat.isValid] at hvalid
  | some e =>
    obtain ⟨front, back, hsplit, -⟩ := List.lookup_eq_some_iff.mp he
    rw [hsplit]
    simp

theorem mem_entries_of_read {q : Path} {content : String} (h : m.read q = .ok content) :
    ∃ key mtime, (key, .file content mtime) ∈ m.entries := by
  unfold read at h
  cases he : m.entry? q with
  | none => simp [he] at h
  | some e =>
    obtain ⟨front, back, hsplit, -⟩ := List.lookup_eq_some_iff.mp he
    cases e with
    | directory mtime => simp [he] at h
    | file content' mtime =>
      obtain rfl : content' = content := by simpa [he] using h
      exact ⟨keyOf q, mtime, by simp [hsplit]⟩

/-! ### Counts -/

theorem lookup_filter_of_ne {α : Type} {key k : Path} (h : k ≠ key) (pairs : List (Path × α)) :
    (pairs.filter (·.1 ≠ key)).lookup k = pairs.lookup k := by
  induction pairs with
  | nil => rfl
  | cons pair pairs ih =>
    obtain ⟨key', value⟩ := pair
    by_cases hkey : key' = key
    · have hbeq : (k == key') = false := by rw [beq_eq_false_iff_ne, hkey]; exact h
      rw [List.filter_cons_of_neg (by simpa using hkey), List.lookup_cons, hbeq]
      exact ih
    · rw [List.filter_cons_of_pos (by simpa using hkey), List.lookup_cons, List.lookup_cons, ih]

theorem lookup_update {α : Type} (key k : Path) (value : α) (pairs : List (Path × α)) :
    (update key value pairs).lookup k = if k = key then some value else pairs.lookup k := by
  rw [update, List.lookup_cons]
  split_ifs with h
  · rw [h, beq_self_eq_true]
  · rw [beq_eq_false_iff_ne.mpr h]
    exact lookup_filter_of_ne h pairs

@[simp] theorem entry?_afterRead (m : MemoryFiles) (q p : Path) :
    entry? (m.afterRead q) p = m.entry? p := by
  unfold afterRead
  split <;> rfl

/-- A read of a file counts for all paths that have its key. -/
theorem readCount_afterRead {q : Path} (h : m.IsFile q) (p : Path) :
    (m.afterRead q).readCount p = m.readCount p + if keyOf q = keyOf p then 1 else 0 := by
  obtain ⟨content, mtime, he⟩ := h
  have hreads : (m.afterRead q).reads = update (keyOf q) (m.readCount q + 1) m.reads := by
    rw [afterRead, he]
  rw [readCount, hreads, lookup_update]
  by_cases hkey : keyOf q = keyOf p
  · rw [if_pos hkey.symm, if_pos hkey, readCount, readCount, hkey]
    rfl
  · rw [if_neg (Ne.symm hkey), if_neg hkey]
    rfl

/-- Reads of files count once for each of them with the key of a path. -/
theorem readCount_after {actions : List Action} (h : ∀ q ∈ Action.reads actions, m.IsFile q)
    (p : Path) : (m.after actions).readCount p =
      m.readCount p + ((Action.reads actions).map keyOf).count (keyOf p) := by
  unfold after
  generalize Action.reads actions = qs at h
  induction qs generalizing m with
  | nil => rfl
  | cons q qs ih =>
    obtain ⟨hq, hqs⟩ := List.forall_mem_cons.mp h
    have hqs' : ∀ r ∈ qs, (m.afterRead q).IsFile r := fun r hr => by
      simpa [IsFile] using hqs r hr
    rw [List.foldl_cons, ih hqs', readCount_afterRead hq, List.map_cons, List.count_cons]
    simp only [beq_iff_eq]
    omega

end MemoryFiles

end ModuleDeps
