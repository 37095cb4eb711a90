import Mathlib.Data.List.DropRight
import Mathlib.Data.List.Nodup
import ModuleDeps.Cache.Table

/-!
# A map and its queue

A table's map and its queue of keys are in step if each key of the map is queued once and no other
keys are (`Table.InStep`). The operations keep them in step, so an eviction takes out as many keys
as there are too many: it never finds the queue empty (`InStep.exists_popOldest?`), and it ends with
what may be left (`InStep.evict`). What is left of the queue is its end (`InStep.order_evict`).
-/

namespace ModuleDeps.Table

variable {κ α : Type} [DecidableEq κ] {t t' : Table κ α} {key : κ} {value : α} {capacity : Nat}

/-- The keys of the map. -/
def keys (t : Table κ α) : List κ := t.entries.map Prod.fst

/-- Each key of the map is queued once, and no other keys are. -/
structure InStep (t : Table κ α) : Prop where
  nodup : t.order.Nodup
  perm : t.keys.Perm t.order

/-! ### What is in the map -/

omit [DecidableEq κ] in
theorem length_keys (t : Table κ α) : t.keys.length = t.size := List.length_map _

theorem isSome_find?_iff : (t.find? key).isSome = true ↔ key ∈ t.keys := by
  unfold find? keys
  induction t.entries with
  | nil => simp
  | cons e entries ih =>
    rw [List.lookup_cons, List.map_cons, List.mem_cons]
    by_cases hkey : key = e.1
    · simp [hkey]
    · simpa only [beq_eq_false_iff_ne.mpr hkey, hkey, false_or] using ih

theorem find?_eq_none_iff : t.find? key = none ↔ key ∉ t.keys := by
  rw [← isSome_find?_iff, Bool.not_eq_true, Option.isSome_eq_false_iff, Option.isNone_iff_eq_none]

theorem mem_entries_of_find? (h : t.find? key = some value) : (key, value) ∈ t.entries := by
  obtain ⟨older, newer, hentries, -⟩ := List.lookup_eq_some_iff.mp h
  rw [hentries]
  exact List.mem_append_right older List.mem_cons_self

/-! ### Insertion -/

/-- A new key is the newest. -/
theorem insert_of_not_mem (h : key ∉ t.keys) (value : α) :
    t.insert key value = ⟨t.entries ++ [(key, value)], t.order ++ [key]⟩ := by
  unfold insert
  rw [if_neg (by rwa [isSome_find?_iff])]

/-- A key of the table keeps its turn. -/
theorem order_insert_of_mem (h : key ∈ t.keys) (value : α) :
    (t.insert key value).order = t.order := by
  unfold insert
  rw [if_pos (isSome_find?_iff.mpr h)]

theorem keys_insert_of_mem (h : key ∈ t.keys) (value : α) :
    (t.insert key value).keys = t.keys := by
  have hkey (e : κ × α) : (if e.1 = key then (key, value) else e).1 = e.1 := by
    split
    · exact Eq.symm ‹_›
    · rfl
  unfold insert keys
  rw [if_pos (isSome_find?_iff.mpr h), List.map_map]
  exact List.map_congr_left fun e _ => hkey e

theorem keys_insert_of_not_mem (h : key ∉ t.keys) (value : α) :
    (t.insert key value).keys = t.keys ++ [key] := by
  rw [insert_of_not_mem h, keys, keys, List.map_append]
  rfl

theorem size_insert_of_mem (h : key ∈ t.keys) (value : α) : (t.insert key value).size = t.size := by
  rw [← length_keys, keys_insert_of_mem h, length_keys]

theorem size_insert_of_not_mem (h : key ∉ t.keys) (value : α) :
    (t.insert key value).size = t.size + 1 := by
  rw [← length_keys, keys_insert_of_not_mem h, List.length_append, length_keys]
  rfl

/-- The map grows by a new key alone. -/
theorem size_insert (t : Table κ α) (key : κ) (value : α) :
    (t.insert key value).size = t.size + (t.find? key).isNone.toNat := by
  cases hfind : t.find? key with
  | none => exact size_insert_of_not_mem (find?_eq_none_iff.mp hfind) value
  | some old => exact size_insert_of_mem (isSome_find?_iff.mp (by rw [hfind]; rfl)) value

/-- An insertion puts nothing else into the map. -/
theorem mem_entries_insert {e : κ × α} (h : e ∈ (t.insert key value).entries) :
    e = (key, value) ∨ e ∈ t.entries := by
  unfold insert at h
  split at h
  · obtain ⟨e', he', rfl⟩ := List.mem_map.mp h
    by_cases hkey : e'.1 = key
    · exact .inl (if_pos hkey)
    · rw [if_neg hkey]
      exact .inr he'
  · rcases List.mem_append.mp h with h | h
    · exact .inr h
    · exact .inl (List.mem_singleton.mp h)

/-- The new value is there. -/
theorem mem_entries_insert_self (t : Table κ α) (key : κ) (value : α) :
    (key, value) ∈ (t.insert key value).entries := by
  by_cases hkey : key ∈ t.keys
  · obtain ⟨e, he, rfl⟩ := List.mem_map.mp hkey
    unfold insert
    rw [if_pos (isSome_find?_iff.mpr hkey)]
    exact List.mem_map.mpr ⟨e, he, if_pos rfl⟩
  · rw [insert_of_not_mem hkey]
    exact List.mem_append_right _ List.mem_cons_self

/-- The values under other keys stay there. -/
theorem mem_entries_insert_of_ne {e : κ × α} (h : e ∈ t.entries) (hne : e.1 ≠ key) (value : α) :
    e ∈ (t.insert key value).entries := by
  unfold insert
  split
  · exact List.mem_map.mpr ⟨e, h, if_neg hne⟩
  · exact List.mem_append_left _ h

omit [DecidableEq κ] in
theorem inStep_empty : ({} : Table κ α).InStep := ⟨List.nodup_nil, .nil⟩

theorem InStep.insert (h : t.InStep) (key : κ) (value : α) : (t.insert key value).InStep := by
  by_cases hkey : key ∈ t.keys
  · refine ⟨?_, ?_⟩
    · rw [order_insert_of_mem hkey]
      exact h.nodup
    · rw [keys_insert_of_mem hkey, order_insert_of_mem hkey]
      exact h.perm
  · have horder : (t.insert key value).order = t.order ++ [key] := by rw [insert_of_not_mem hkey]
    refine ⟨?_, ?_⟩
    · rw [horder, List.nodup_append_comm]
      exact List.nodup_cons.mpr ⟨fun hmem => hkey (h.perm.mem_iff.mpr hmem), h.nodup⟩
    · rw [keys_insert_of_not_mem hkey, horder]
      exact h.perm.append_right [key]

/-- The values of a table in step are those that its keys are looked up with. -/
theorem InStep.find?_eq_some_iff (h : t.InStep) :
    t.find? key = some value ↔ (key, value) ∈ t.entries := by
  refine ⟨mem_entries_of_find?, fun hmem => ?_⟩
  have hnodup : (t.entries.map Prod.fst).Nodup := h.perm.nodup_iff.mpr h.nodup
  obtain ⟨found, hfind⟩ := Option.isSome_iff_exists.mp
    (isSome_find?_iff.mpr (List.mem_map_of_mem hmem))
  have hsame := List.inj_on_of_nodup_map hnodup (mem_entries_of_find? hfind) hmem rfl
  rw [hfind, (Prod.mk.inj hsame).2]

theorem InStep.find?_insert_self (h : t.InStep) (key : κ) (value : α) :
    (t.insert key value).find? key = some value :=
  (h.insert key value).find?_eq_some_iff.mpr (mem_entries_insert_self t key value)

theorem InStep.find?_insert_of_ne (h : t.InStep) {other : κ} (hne : other ≠ key) (value : α) :
    (t.insert key value).find? other = t.find? other := by
  ext old
  rw [h.find?_eq_some_iff, (h.insert key value).find?_eq_some_iff]
  refine ⟨fun hmem => ?_, fun hmem => mem_entries_insert_of_ne hmem hne value⟩
  rcases mem_entries_insert hmem with heq | hmem
  · exact absurd (Prod.mk.inj heq).1 hne
  · exact hmem

/-! ### Taking keys out -/

theorem popOldest?_eq_some_iff : t.popOldest? = some (key, t') ↔
    t.order = key :: t'.order ∧ t'.entries = t.entries.filter fun e => e.1 ≠ key := by
  obtain ⟨entries', order'⟩ := t'
  unfold popOldest?
  cases horder : t.order with
  | nil => simp
  | cons oldest order =>
    simp only [Option.some.injEq, Prod.mk.injEq, Table.mk.injEq, List.cons.injEq]
    constructor
    · rintro ⟨rfl, rfl, rfl⟩
      exact ⟨⟨rfl, rfl⟩, rfl⟩
    · rintro ⟨⟨rfl, rfl⟩, rfl⟩
      exact ⟨rfl, rfl, rfl⟩

theorem keys_of_popOldest? (h : t.popOldest? = some (key, t')) :
    t'.keys = t.keys.filter fun k => k ≠ key := by
  obtain ⟨-, hentries⟩ := popOldest?_eq_some_iff.mp h
  rw [keys, keys, hentries, List.filter_map]
  rfl

omit [DecidableEq κ] in
theorem InStep.length_order (h : t.InStep) : t.order.length = t.size := by
  rw [← h.perm.length_eq, length_keys]

/-- A queue with keys of the map in it has an oldest one. -/
theorem InStep.exists_popOldest? (h : t.InStep) (hsize : 0 < t.size) :
    ∃ key t', t.popOldest? = some (key, t') := by
  have hlength := h.length_order
  cases horder : t.order with
  | nil =>
    rw [horder, List.length_nil] at hlength
    omega
  | cons key order => exact ⟨key, _, by rw [popOldest?, horder]⟩

theorem InStep.popOldest? (h : t.InStep) (hpop : t.popOldest? = some (key, t')) : t'.InStep := by
  obtain ⟨horder, -⟩ := popOldest?_eq_some_iff.mp hpop
  have hnodup := h.nodup
  have hperm := h.perm
  rw [horder] at hnodup hperm
  obtain ⟨hkey, hnodup⟩ := List.nodup_cons.mp hnodup
  refine ⟨hnodup, ?_⟩
  have hrest : (key :: t'.order).filter (fun k => k ≠ key) = t'.order := by
    rw [List.filter_cons_of_neg (by simp), List.filter_eq_self]
    intro k hk
    simpa using ne_of_mem_of_not_mem hk hkey
  rw [keys_of_popOldest? hpop, ← hrest]
  exact hperm.filter _

theorem InStep.size_of_popOldest? (h : t.InStep) (hpop : t.popOldest? = some (key, t')) :
    t'.size + 1 = t.size := by
  obtain ⟨horder, -⟩ := popOldest?_eq_some_iff.mp hpop
  rw [← h.length_order, horder, List.length_cons, (h.popOldest? hpop).length_order]

/-! ### Eviction -/

/-- The tables that an eviction from `t` comes to, one key after the other. -/
inductive Evicting (capacity : Nat) (t : Table κ α) : Table κ α → Prop where
  /-- The table that it starts with. -/
  | start : Evicting capacity t t
  /-- There are too many values, and the oldest key is taken out. -/
  | pop {t' t'' : Table κ α} {key : κ} (h : Evicting capacity t t') (hsize : capacity < t'.size)
      (hpop : t'.popOldest? = some (key, t'')) : Evicting capacity t t''

theorem Evicting.inStep (h : Evicting capacity t t') (ht : t.InStep) : t'.InStep := by
  induction h with
  | start => exact ht
  | pop _ _ hpop ih => exact ih.popOldest? hpop

/-- An eviction that starts with a table that another one comes to. -/
theorem Evicting.trans {t₁ t₂ t₃ : Table κ α} (h₁ : Evicting capacity t₁ t₂)
    (h₂ : Evicting capacity t₂ t₃) : Evicting capacity t₁ t₃ := by
  induction h₂ with
  | start => exact h₁
  | pop _ hsize hpop ih => exact ih.pop hsize hpop

/-- An eviction ends with one of the tables that it comes to. -/
theorem evicting_evict (capacity : Nat) (t : Table κ α) :
    Evicting capacity t (t.evict capacity).1 := by
  fun_induction evict capacity t with
  | case1 => exact .start
  | case2 => exact .start
  | case3 t hsize key rest hpop left keys hevict ih =>
    rw [hevict] at ih
    exact (Evicting.start.pop (by omega) hpop).trans ih

theorem evict_subset (capacity : Nat) (t : Table κ α) :
    (t.evict capacity).1.entries ⊆ t.entries := by
  fun_induction evict capacity t with
  | case1 => exact List.Subset.refl _
  | case2 => exact List.Subset.refl _
  | case3 t _ key rest hpop left keys hevict ih =>
    rw [hevict] at ih
    rw [(popOldest?_eq_some_iff.mp hpop).2] at ih
    exact List.Subset.trans ih (List.filter_subset_self _)

/-- What an eviction leaves of a table in step: as many values as there may be, and the keys that
were taken out make up for those that are gone. -/
theorem InStep.evict (h : t.InStep) (capacity : Nat) :
    (t.evict capacity).1.InStep ∧ (t.evict capacity).1.size ≤ capacity ∧
      (t.evict capacity).1.size + (t.evict capacity).2.length = t.size := by
  fun_induction Table.evict capacity t with
  | case1 t hsize => exact ⟨h, hsize, rfl⟩
  | case2 t hsize hpop =>
    obtain ⟨key, t', hpop'⟩ := h.exists_popOldest? (by omega)
    rw [hpop] at hpop'
    cases hpop'
  | case3 t hsize key rest hpop left keys hevict ih =>
    obtain ⟨hstep, hle, hsum⟩ := ih (h.popOldest? hpop)
    rw [hevict] at hstep hle hsum
    have hone := h.size_of_popOldest? hpop
    refine ⟨hstep, hle, ?_⟩
    simp only [List.length_cons] at hsum ⊢
    omega

/-- A key that an eviction leaves keeps its value. -/
theorem InStep.find?_evict (h : t.InStep) (hleft : key ∈ (t.evict capacity).1.keys) :
    (t.evict capacity).1.find? key = t.find? key := by
  obtain ⟨value, hfind⟩ := Option.isSome_iff_exists.mp (isSome_find?_iff.mpr hleft)
  rw [hfind]
  exact (h.find?_eq_some_iff.mpr (evict_subset capacity t (mem_entries_of_find? hfind))).symm

/-! ### The end of a queue -/

section Queue

variable {β : Type} {n : Nat} {xs ys : List β} {x : β}

theorem rtake_of_length_le (h : xs.length ≤ n) : xs.rtake n = xs := by
  rw [List.rtake, Nat.sub_eq_zero_of_le h, List.drop_zero]

/-- Where there are enough newer keys, older ones do not matter. -/
theorem rtake_append_of_le (h : n ≤ ys.length) : (xs ++ ys).rtake n = ys.rtake n := by
  unfold List.rtake
  rw [List.length_append, Nat.add_sub_assoc h, List.drop_append, List.drop_eq_nil_of_le (by omega),
    List.nil_append, Nat.add_sub_cancel_left]

/-- The newest keys can be told from the newest ones at an earlier time. -/
theorem rtake_rtake_append (n : Nat) (xs ys : List β) :
    (xs.rtake n ++ ys).rtake n = (xs ++ ys).rtake n := by
  simp only [List.rtake_eq_reverse_take_reverse, List.reverse_append, List.reverse_reverse,
    List.take_append, List.take_take]
  rw [Nat.min_eq_left (Nat.sub_le n _)]

theorem mem_rtake_append_cons (h : ys.length < n) : x ∈ (xs ++ x :: ys).rtake n := by
  rw [List.rtake_eq_reverse_take_reverse]
  simp only [List.reverse_append, List.reverse_cons, List.append_assoc, List.mem_reverse]
  rw [List.take_append, List.length_reverse, List.take_append]
  have hone : n - ys.length = n - ys.length - 1 + 1 := by omega
  rw [hone]
  simp

end Queue

/-- What an eviction leaves of the queue is its end. -/
theorem InStep.order_evict (h : t.InStep) (capacity : Nat) :
    (t.evict capacity).1.order = t.order.rtake capacity := by
  fun_induction Table.evict capacity t with
  | case1 t hsize => rw [rtake_of_length_le (h.length_order.trans_le hsize)]
  | case2 t hsize hpop =>
    obtain ⟨key, t', hpop'⟩ := h.exists_popOldest? (by omega)
    rw [hpop] at hpop'
    cases hpop'
  | case3 t hsize key rest hpop left keys hevict ih =>
    have hrest := h.popOldest? hpop
    have hone := h.size_of_popOldest? hpop
    obtain ⟨horder, -⟩ := popOldest?_eq_some_iff.mp hpop
    have hlength : capacity ≤ rest.order.length := by
      rw [hrest.length_order]
      omega
    rw [hevict] at ih
    rw [ih hrest, horder, ← List.singleton_append, rtake_append_of_le hlength]

end ModuleDeps.Table
