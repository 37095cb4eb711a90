import ModuleDeps.Proofs.Cache.Bookkeeping

/-!
# The order of eviction

The queue of a cache is the end of the list of all keys that ever came new into its table
(`Balanced.order_serveAll`). A key that is added is therefore followed in the queue by those that
are added after it and by no others, and it goes when there are as many of them as the table has
room for (`first_in_first_out`): answers from the table, answers that take the place of older ones
under their keys, failures and answers that are not kept make no difference.
-/

namespace ModuleDeps

namespace Cache

/-- The key that the call adds to the table, if it adds one. -/
def newKey? (depth : Nat) (c : Cache) (k : Call) : Option CacheKey :=
  if c.adds depth k then some k.key else none

/-- The keys that requests add to the table, in turn. -/
def arrivals (depth : Nat) : Cache → List Request → List CacheKey
  | _, [] => []
  | c, r :: rs =>
    (c.newKey? depth r.toCall).toList ++
      ((c.serve depth r).map fun c => arrivals depth c rs).getD []

variable {depth calls added : Nat} {c c' : Cache} {k : Call} {r : Request} {rs : List Request}
  {answer : Except Unresolvable (List String)} {actions : List Action}

theorem length_newKey? (c : Cache) (k : Call) :
    (c.newKey? depth k).toList.length = (c.adds depth k).toNat := by
  unfold newKey?
  cases c.adds depth k <;> rfl

/-- There are as many keys as additions. -/
theorem length_arrivals (c : Cache) (rs : List Request) :
    (arrivals depth c rs).length = additions depth c rs := by
  induction rs generalizing c with
  | nil => rfl
  | cons r rs ih =>
    rw [arrivals, additions, List.length_append, length_newKey?]
    cases c.serve depth r with
    | none => rfl
    | some c' => exact congrArg _ (ih c')

theorem newKey?_of_not_adds (h : c.adds depth k = false) : c.newKey? depth k = none := by
  rw [newKey?, h]
  rfl

theorem newKey?_of_adds (h : c.adds depth k = true) : c.newKey? depth k = some k.key := by
  rw [newKey?, if_pos h]

/-! ### The queue -/

theorem Balanced.mem_order_iff (h : c.Balanced calls added) {key : CacheKey} :
    key ∈ c.table.order ↔ key ∈ c.table.keys := h.inStep.perm.mem_iff.symm

/-- A queue is not longer than the table may be. -/
theorem Balanced.rtake_order (h : c.Balanced calls added) :
    c.table.order.rtake c.config.maxEntries = c.table.order :=
  Table.rtake_of_length_le (h.inStep.length_order.trans_le h.size_le)

/-- A call that adds no key leaves the queue alone. -/
theorem Balanced.rtake_order_append_none (h : c.Balanced calls added)
    (hadds : c.adds depth k = false) :
    (c.table.order ++ (c.newKey? depth k).toList).rtake c.config.maxEntries = c.table.order := by
  rw [newKey?_of_not_adds hadds, Option.toList_none, List.append_nil, h.rtake_order]

/-- What a call leaves of the queue is its end, with the key that it adds. -/
theorem Balanced.order_answers (h : c.Balanced calls added)
    (ha : Answers c k.fs k.cwd depth k.root answer c' actions) :
    c'.table.order =
      (c.table.order ++ (c.newKey? depth k).toList).rtake c.config.maxEntries := by
  cases ha with
  | hit hl => exact (h.rtake_order_append_none (adds_of_find?_eq_some (of_lookup_hit hl).1)).symm
  | failed hm hd => exact (h.rtake_order_append_none (adds_of_error hd)).symm
  | untrusted hm hd hs => exact (h.rtake_order_append_none (adds_of_untrusted hd hs)).symm
  | @kept files _ _ hm hd hs =>
    have hadds : c.adds depth k = (c.table.find? k.key).isNone := adds_of_trusted hd hs
    have horder : (c.table.insert k.key files).order =
        c.table.order ++ (c.newKey? depth k).toList := by
      cases hfind : c.table.find? k.key with
      | none =>
        rw [newKey?_of_adds (by rw [hadds, hfind]; rfl),
          Table.insert_of_not_mem (Table.find?_eq_none_iff.mp hfind)]
        rfl
      | some old =>
        rw [newKey?_of_not_adds (by rw [hadds, hfind]; rfl), Option.toList_none, List.append_nil,
          Table.order_insert_of_mem (Table.isSome_find?_iff.mp (by rw [hfind]; rfl))]
    rw [← horder]
    exact (h.inStep.insert k.key files).order_evict c.config.maxEntries

/-- What a run leaves of the queue is its end, with the keys that the run adds. -/
theorem Balanced.order_serveAll (h : c.Balanced calls added)
    (hrun : c.serveAll depth rs = some c') :
    c'.table.order = (c.table.order ++ arrivals depth c rs).rtake c.config.maxEntries := by
  induction rs generalizing c calls added with
  | nil =>
    cases hrun
    rw [arrivals, List.append_nil, h.rtake_order]
  | cons r rs ih =>
    obtain ⟨c₁, hserve, hrun⟩ := Option.bind_eq_some_iff.mp hrun
    obtain ⟨answer, actions, ha⟩ := answers_of_serve hserve
    rw [ih (h.answers ha) hrun, h.order_answers ha, Answers.config_eq (k := r.toCall) ha,
      Table.rtake_rtake_append, List.append_assoc, arrivals, hserve]
    rfl

/-! ### Additions -/

/-- A call adds its key if the table comes to have it. -/
theorem Balanced.adds_iff (h : c.Balanced calls added) (hroom : 0 < c.config.maxEntries)
    (ha : Answers c k.fs k.cwd depth k.root answer c' actions) :
    c.adds depth k = true ↔ k.key ∉ c.table.keys ∧ k.key ∈ c'.table.keys := by
  constructor
  · intro hadds
    refine ⟨fun hkey => ?_, ?_⟩
    · obtain ⟨files, hfind⟩ := Option.isSome_iff_exists.mp (Table.isSome_find?_iff.mpr hkey)
      rw [adds_of_find?_eq_some hfind] at hadds
      cases hadds
    · rw [← (h.answers ha).mem_order_iff, h.order_answers ha, newKey?_of_adds hadds]
      exact Table.mem_rtake_append_cons hroom
  · rintro ⟨habsent, hstored⟩
    by_contra hadds
    rw [← h.mem_order_iff] at habsent
    rw [← (h.answers ha).mem_order_iff, h.order_answers ha,
      h.rtake_order_append_none (Bool.eq_false_iff.mpr hadds)] at hstored
    exact habsent hstored

/-- An addition that leaves the number of answers as it was drops one of them. -/
theorem Balanced.evicted_eq (h : c.Balanced calls added)
    (ha : Answers c k.fs k.cwd depth k.root answer c' actions) (hadds : c.adds depth k = true)
    (hsize : c'.size = c.size) : c'.stats.evicted = c.stats.evicted + 1 := by
  have hadded := (h.answers ha).added_eq
  rw [hadds, hsize, UInt64.ofNat_add, ← h.added_eq, UInt64.add_assoc,
    UInt64.add_comm (.ofNat c.size), ← UInt64.add_assoc] at hadded
  exact (UInt64.add_left_inj _).mp hadded

/-- A key that is added is followed in the queue by those that are added later. -/
theorem Balanced.order_after {c₁ c₂ : Cache} (h : c.Balanced calls added)
    (hadds : c.adds depth r.toCall = true) (hserve : c.serve depth r = some c₁)
    (hrun : c₁.serveAll depth rs = some c₂) :
    c₂.table.order =
      (c.table.order ++ r.key :: arrivals depth c₁ rs).rtake c.config.maxEntries := by
  have hall : c.serveAll depth (r :: rs) = some c₂ := Option.bind_eq_some_iff.mpr ⟨c₁, hserve, hrun⟩
  rw [h.order_serveAll hall, arrivals, hserve, newKey?_of_adds hadds]
  rfl

/-- What is left of a full queue by an addition is all but its oldest key. -/
theorem Balanced.order_of_full {first : CacheKey} {newer : List CacheKey}
    (h : c.Balanced calls added) (horder : c.table.order = first :: newer)
    (hfull : newer.length + 1 = c.config.maxEntries)
    (ha : Answers c k.fs k.cwd depth k.root answer c' actions) (hadds : c.adds depth k = true) :
    c'.table.order = newer ++ [k.key] := by
  have hlength : (newer ++ [k.key]).length = c.config.maxEntries := by
    rw [List.length_append]
    exact hfull
  rw [h.order_answers ha, newKey?_of_adds hadds, horder, ← List.singleton_append, List.append_assoc,
    Option.toList_some, Table.rtake_append_of_le hlength.ge]
  exact Table.rtake_of_length_le hlength.le

/-- An addition to a full table drops the oldest key. -/
theorem Balanced.drops_first {first : CacheKey} {newer : List CacheKey}
    (h : c.Balanced calls added) (horder : c.table.order = first :: newer)
    (hfull : newer.length + 1 = c.config.maxEntries) (hroom : 0 < c.config.maxEntries)
    (ha : Answers c k.fs k.cwd depth k.root answer c' actions) (hadds : c.adds depth k = true) :
    first ∉ c'.table.keys ∧ c'.stats.evicted = c.stats.evicted + 1 := by
  have hafter := h.answers ha
  have hleft := h.order_of_full horder hfull ha hadds
  have hmem : first ∈ c.table.keys := by
    rw [← h.mem_order_iff, horder]
    exact List.mem_cons_self
  refine ⟨fun hstays => ?_, h.evicted_eq ha hadds ?_⟩
  · have hnodup := h.inStep.nodup
    rw [horder] at hnodup
    rw [← hafter.mem_order_iff, hleft, List.mem_append, List.mem_singleton] at hstays
    rcases hstays with hnewer | rfl
    · exact (List.nodup_cons.mp hnodup).1 hnewer
    · exact ((h.adds_iff hroom ha).mp hadds).1 hmem
  · calc c'.table.size = c'.table.order.length := hafter.inStep.length_order.symm
      _ = c.table.order.length := by rw [hleft, horder, List.length_append]; rfl
      _ = c.table.size := h.inStep.length_order

/-- **The key that came first goes first**: a key that was not in the table and that a request put
there stays there as long as fewer later requests put new keys there than the table has room for, and
the one that makes up the number drops it, and it alone. What the other requests are, and whether they
are answered from the table, does not matter. -/
theorem first_in_first_out {config : Config} {before later : List Request} {c c₁ c₂ : Cache}
    (hbefore : ({ config } : Cache).serveAll depth before = some c)
    (habsent : r.key ∉ c.table.keys) (hserve : c.serve depth r = some c₁)
    (hstored : r.key ∈ c₁.table.keys) (hlater : c₁.serveAll depth later = some c₂) :
    (additions depth c₁ later < config.maxEntries → r.key ∈ c₂.table.keys) ∧
    (additions depth c₁ later + 1 = config.maxEntries →
      ∀ s c₃, c₂.serve depth s = some c₃ → s.key ∉ c₂.table.keys → s.key ∈ c₃.table.keys →
        r.key ∉ c₃.table.keys ∧ c₃.stats.evicted = c₂.stats.evicted + 1) := by
  have hbalanced := (balanced_empty config).serveAll hbefore
  obtain rfl : c.config = config := config_of_serveAll hbefore
  obtain ⟨answer, actions, ha⟩ := answers_of_serve hserve
  have hbalanced₁ := hbalanced.answers (k := r.toCall) ha
  have hconfig₁ : c₁.config = c.config := Answers.config_eq (k := r.toCall) ha
  have hbalanced₂ := hbalanced₁.serveAll hlater
  have hconfig₂ : c₂.config = c.config := (config_of_serveAll hlater).trans hconfig₁
  have hroom : 0 < c.config.maxEntries := by
    rw [← hconfig₁]
    exact (List.length_pos_of_mem hstored).trans_le
      ((Table.length_keys _).trans_le hbalanced₁.size_le)
  have hadds : c.adds depth r.toCall = true := (hbalanced.adds_iff hroom ha).mpr ⟨habsent, hstored⟩
  have horder := hbalanced.order_after hadds hserve hlater
  rw [← length_arrivals c₁ later]
  refine ⟨fun hfew => ?_, fun hturn s c₃ hs hnew hput => ?_⟩
  · rw [← hbalanced₂.mem_order_iff, horder]
    exact Table.mem_rtake_append_cons hfew
  · obtain ⟨answer₃, actions₃, ha₃⟩ := answers_of_serve hs
    rw [← hconfig₂] at hroom hturn horder
    -- only what came later is left beside the key
    rw [Table.rtake_append_of_le hturn.ge, Table.rtake_of_length_le hturn.le] at horder
    exact hbalanced₂.drops_first (k := s.toCall) horder hturn hroom ha₃
      ((hbalanced₂.adds_iff hroom ha₃).mpr ⟨hnew, hput⟩)

/-- There is room for two. The module map that came first is asked for again, then edited and asked
for again; one is not there, one was just written, and one comes new. The next one that comes new
drops the first. -/
theorem first_in_first_out_refreshed :
    let old : List (Path × String) :=
      [(.ofString "/w/a", "module a \x7b \x7d"), (.ofString "/w/b", "module b \x7b \x7d")]
    let edited : List (Path × String) :=
      [(.ofString "/w/a", "module z \x7b \x7d"), (.ofString "/w/b", "module b \x7b \x7d"),
        (.ofString "/w/c", "module c \x7b \x7d")]
    let seen (secs : Int) : FileSystem := .holding ⟨0, 0, by decide⟩ ⟨secs, 0, by decide⟩ old
    let seenLater (secs : Int) : FileSystem :=
      .holding ⟨20, 0, by decide⟩ ⟨secs, 0, by decide⟩ edited
    let request (fs : FileSystem) (root : String) : Request :=
      { fs, cwd := .ofString "/w", root := .ofString root }
    let first := request (seen 9) "a"
    let later := [request (seen 10) "a", request (seenLater 30) "a", request (seen 31) "d",
      request (seenLater 21) "c", request (seen 32) "b"]
    let last := request (seenLater 33) "c"
    let c : Cache := { config := { maxEntries := 2 } }
    ∃ c₁ c₂ c₃, c.serve 1 first = some c₁ ∧ c₁.serveAll 1 later = some c₂ ∧
      c₂.serve 1 last = some c₃ ∧ c₂.stats = ⟨1, 5, 0⟩ ∧
      first.key ∈ c₂.table.keys ∧ first.key ∉ c₃.table.keys ∧
      c₃.stats.evicted = c₂.stats.evicted + 1 := by
  intro old edited seen seenLater request first later last c
  obtain ⟨c₁, hserve, hrest⟩ := Option.bind_eq_some_iff.mp
    (show (c.serve 1 first).bind (fun c₁ => (c₁.serveAll 1 later).bind fun c₂ =>
      (c₂.serve 1 last).map fun c₃ =>
        (c₁.table.keys, additions 1 c₁ later, c₂.stats, c₂.table.keys, c₃.table.keys)) =
      some ([first.key], 1, ⟨1, 5, 0⟩, [first.key, .of (.ofString "/w") (.ofString "b")],
        [.of (.ofString "/w") (.ofString "b"), last.key]) by decide +kernel)
  obtain ⟨c₂, hlater, hrest⟩ := Option.bind_eq_some_iff.mp hrest
  obtain ⟨c₃, hlast, hseen⟩ := Option.map_eq_some_iff.mp hrest
  simp only [Prod.mk.injEq] at hseen
  obtain ⟨hkeys₁, hadditions, hstats, hkeys₂, hkeys₃⟩ := hseen
  have hbefore : c.serveAll 1 [] = some c := rfl
  have hturns := first_in_first_out (r := first) hbefore (by decide) hserve (by rw [hkeys₁]; decide)
    hlater
  rw [hadditions] at hturns
  have hgone := hturns.2 rfl last c₃ hlast (by rw [hkeys₂]; decide) (by rw [hkeys₃]; decide)
  exact ⟨c₁, c₂, c₃, hserve, hlater, hlast, hstats, hturns.1 (by decide), hgone⟩

end Cache

end ModuleDeps
