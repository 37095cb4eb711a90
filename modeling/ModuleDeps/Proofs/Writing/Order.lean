import Mathlib.Data.List.Basic
import ModuleDeps.Proofs.Grammar.Denotation
import ModuleDeps.Proofs.Grammar.Formation

/-!
# Declarations in the order of writing

A module is written from its tree, which keeps each kind of member apart. `Decl.written` is the
declaration that is written for what a declaration denotes: the members grouped by kind, all
required features in one list, empty braces left out, and one `export *` for any number of them. It
denotes the same (`module?_written`), but it may be less legible: conflicts come last, so a list
without macros that stood behind them now stands in front of them (`legible_written_iff`).
-/

namespace ModuleDeps

namespace Decl

/-- The place of a member among the others. -/
def rank : Decl → Nat
  | requires .. => 0
  | header .. => 1
  | umbrellaDir .. => 2
  | external .. | inferred .. | regular .. => 3
  | exports .. => 4
  | exportAs .. => 5
  | use .. => 6
  | link .. => 7
  | configMacros .. => 8
  | conflict .. => 9

/-- The declaration of all required features, if there are any. -/
def requiring : List Feature → List Decl
  | [] => []
  | f :: fs => [requires f fs]

/-- The members of one rank. -/
def ofRank (r : Nat) (ds : List Decl) : List Decl := ds.filter (·.rank == r)

/-- The members in front of the submodules, the submodules, and the members between them and the
lists of macros. -/
def groupedFront (ds : List Decl) : List Decl :=
  requiring (ds.flatMap features) ++ ofRank 1 ds ++ ofRank 2 ds ++ ofRank 3 ds ++ ofRank 4 ds ++
    ofRank 5 ds ++ ofRank 6 ds ++ ofRank 7 ds

/-- The members grouped by rank. -/
def grouped (ds : List Decl) : List Decl := groupedFront ds ++ (ofRank 8 ds ++ ofRank 9 ds)

mutual

/-- The declaration that is written for what a declaration denotes. -/
def written : Decl → Decl
  | header form name braces => header form name (braces.join.map some)
  | inferred e f attributes exportCount => inferred e f attributes (min exportCount 1)
  | regular e f name attributes members =>
    regular e f name attributes (grouped (writtenEach members))
  | d => d

/-- What is written for each of some declarations. -/
def writtenEach : List Decl → List Decl
  | [] => []
  | d :: ds => d.written :: writtenEach ds

end

theorem writtenEach_eq_map (ds : List Decl) : writtenEach ds = ds.map written := by
  induction ds with
  | nil => rfl
  | cons d ds ih => rw [writtenEach, ih, List.map_cons]

/-! ### Looking for members of one kind -/

@[simp] theorem mem_ofRank {r : Nat} {ds : List Decl} {d : Decl} :
    d ∈ ofRank r ds ↔ d ∈ ds ∧ d.rank = r := by
  simp [ofRank]

theorem mem_requiring {fs : List Feature} {d : Decl} (h : d ∈ requiring fs) :
    ∃ f fs', d = requires f fs' := by
  cases fs with
  | nil => cases h
  | cons f fs => exact ⟨f, fs, List.mem_singleton.mp h⟩

theorem flatMap_features_requiring (fs : List Feature) : (requiring fs).flatMap features = fs := by
  cases fs with
  | nil => rfl
  | cons f fs => simp [requiring, features]

/-- What `p` looks for is found in the members of rank `r`, and in no others. -/
def Collects {α : Type} (p : Decl → Option α) (r : Nat) : Prop := ∀ d, (p d).isSome = (d.rank == r)

theorem collects_header? : Collects header? 1 := by
  rintro ⟨⟩ <;> rfl

theorem collects_umbrellaDir? : Collects umbrellaDir? 2 := by
  rintro ⟨⟩ <;> rfl

theorem collects_module? : Collects module? 3 := by
  rintro ⟨⟩ <;> rfl

theorem collects_export? : Collects export? 4 := by
  rintro ⟨⟩ <;> rfl

theorem collects_exportAs? : Collects exportAs? 5 := by
  rintro ⟨⟩ <;> rfl

theorem collects_use? : Collects use? 6 := by
  rintro ⟨⟩ <;> rfl

theorem collects_link? : Collects link? 7 := by
  rintro ⟨⟩ <;> rfl

theorem collects_configMacros? : Collects configMacros? 8 := by
  rintro ⟨⟩ <;> rfl

theorem collects_conflict? : Collects conflict? 9 := by
  rintro ⟨⟩ <;> rfl

section Collects

variable {α : Type} {p : Decl → Option α} {r : Nat} (hp : Collects p r)

include hp

theorem Collects.eq_none_iff {d : Decl} : p d = none ↔ d.rank ≠ r := by
  rw [← Option.isNone_iff_eq_none, ← Option.isSome_eq_false_iff, hp d, beq_eq_false_iff_ne]

theorem Collects.rank_eq {d : Decl} {a : α} (hd : p d = some a) : d.rank = r := by
  have hrank := hp d
  rw [hd] at hrank
  exact beq_iff_eq.mp hrank.symm

/-- What is found in members of one rank. -/
theorem filterMap_ofRank (k : Nat) (ds : List Decl) :
    (ofRank k ds).filterMap p = if k = r then ds.filterMap p else [] := by
  by_cases hk : k = r
  · rw [if_pos hk, ofRank, List.filterMap_filter]
    congr 1
    funext d
    by_cases hd : d.rank = k
    · simp [hd]
    · simp [hd, hp.eq_none_iff.mpr (hk ▸ hd)]
  · rw [if_neg hk, List.filterMap_eq_nil_iff]
    intro d hd
    obtain ⟨-, rfl⟩ := mem_ofRank.mp hd
    exact hp.eq_none_iff.mpr hk

theorem filterMap_requiring (hr : 0 < r) (fs : List Feature) : (requiring fs).filterMap p = [] := by
  rw [List.filterMap_eq_nil_iff]
  intro d hd
  obtain ⟨f, fs, rfl⟩ := mem_requiring hd
  exact hp.eq_none_iff.mpr (by simp only [rank]; omega)

/-- Grouping changes nothing for one who looks for members of one rank. -/
theorem filterMap_grouped (hr : 0 < r) (hr' : r < 10) (ds : List Decl) :
    (grouped ds).filterMap p = ds.filterMap p := by
  simp only [grouped, groupedFront, List.filterMap_append, filterMap_ofRank hp,
    filterMap_requiring hp hr]
  obtain rfl | rfl | rfl | rfl | rfl | rfl | rfl | rfl | rfl :
    r = 1 ∨ r = 2 ∨ r = 3 ∨ r = 4 ∨ r = 5 ∨ r = 6 ∨ r = 7 ∨ r = 8 ∨ r = 9 := by omega
  all_goals simp

end Collects

theorem flatMap_features_ofRank {k : Nat} (hk : k ≠ 0) (ds : List Decl) :
    (ofRank k ds).flatMap features = [] := by
  rw [List.flatMap_eq_nil_iff]
  intro d hd
  obtain ⟨-, rfl⟩ := mem_ofRank.mp hd
  cases d with
  | requires => exact absurd rfl hk
  | header | umbrellaDir | external | inferred | regular | exports | exportAs | use | link |
    configMacros | conflict => rfl

theorem flatMap_features_grouped (ds : List Decl) :
    (grouped ds).flatMap features = ds.flatMap features := by
  simp [grouped, groupedFront, List.flatMap_append, flatMap_features_requiring,
    flatMap_features_ofRank]

/-! ### The same is denoted -/

theorem ofDecls_eq_filterMap (ds : List Decl) : Module.ofDecls ds = ds.filterMap module? := by
  induction ds with
  | nil => rfl
  | cons d ds ih =>
    rw [Module.ofDecls, ih]
    cases hd : d.module? <;> simp [hd]

theorem ofMembers_grouped (e f : Bool) (name : DottedName) (as : List String) (ds : List Decl) :
    ModuleInfo.ofMembers e f name as (grouped ds) = .ofMembers e f name as ds := by
  unfold ModuleInfo.ofMembers
  rw [flatMap_features_grouped, filterMap_grouped collects_header? (by omega) (by omega),
    filterMap_grouped collects_umbrellaDir? (by omega) (by omega),
    filterMap_grouped collects_export? (by omega) (by omega),
    filterMap_grouped collects_exportAs? (by omega) (by omega),
    filterMap_grouped collects_use? (by omega) (by omega),
    filterMap_grouped collects_link? (by omega) (by omega),
    filterMap_grouped collects_configMacros? (by omega) (by omega),
    filterMap_grouped collects_conflict? (by omega) (by omega)]

theorem ofDecls_grouped (ds : List Decl) : Module.ofDecls (grouped ds) = Module.ofDecls ds := by
  rw [ofDecls_eq_filterMap, ofDecls_eq_filterMap]
  exact filterMap_grouped collects_module? (by omega) (by omega) ds

theorem header?_written (d : Decl) : d.written.header? = d.header? := by
  cases d with
  | header form name braces => rcases braces with - | - | p <;> rfl
  | requires | umbrellaDir | external | inferred | regular | exports | exportAs | use | link |
    configMacros | conflict => rfl

theorem flatMap_features_writtenEach (ds : List Decl) :
    (writtenEach ds).flatMap features = ds.flatMap features := by
  rw [writtenEach_eq_map, List.flatMap_map]
  congr 1
  funext d
  cases d <;> rfl

theorem ofMembers_writtenEach (e f : Bool) (name : DottedName) (as : List String) (ds : List Decl) :
    ModuleInfo.ofMembers e f name as (writtenEach ds) = .ofMembers e f name as ds := by
  have h {α : Type} {p : Decl → Option α} (hp : ∀ d, p d.written = p d) :
      (writtenEach ds).filterMap p = ds.filterMap p := by
    rw [writtenEach_eq_map, List.filterMap_map]
    exact List.filterMap_congr fun d _ => hp d
  unfold ModuleInfo.ofMembers
  rw [flatMap_features_writtenEach, h header?_written, h (by rintro ⟨⟩ <;> rfl),
    h (by rintro ⟨⟩ <;> rfl), h (by rintro ⟨⟩ <;> rfl), h (by rintro ⟨⟩ <;> rfl),
    h (by rintro ⟨⟩ <;> rfl),
    h (by rintro ⟨⟩ <;> rfl), h (by rintro ⟨⟩ <;> rfl)]

theorem inferred_min (e f : Bool) (as : List String) (k : Nat) :
    ModuleInfo.inferred e f as (min k 1) = .inferred e f as k := by
  cases k with
  | zero => rfl
  | succ k => simp [ModuleInfo.inferred]

mutual

/-- What is written for a declaration denotes the same module. -/
theorem module?_written : ∀ d : Decl, d.written.module? = d.module?
  | .regular e f name as ms => by
    rw [written, module?, module?, ofMembers_grouped, ofMembers_writtenEach, ofDecls_grouped,
      ofDecls_writtenEach ms]
  | .inferred e f as k => by rw [written, module?, module?, inferred_min]
  | .external .. => rfl
  | .requires .. | .header .. | .umbrellaDir .. | .exports .. | .exportAs .. | .use .. | .link .. |
    .configMacros .. | .conflict .. => rfl

theorem ofDecls_writtenEach : ∀ ds : List Decl, Module.ofDecls (writtenEach ds) = Module.ofDecls ds
  | [] => rfl
  | d :: ds => by
    rw [writtenEach, Module.ofDecls, Module.ofDecls, module?_written d, ofDecls_writtenEach ds]

end

/-! ### Nesting -/

theorem mem_grouped {ds : List Decl} {d : Decl} (h : d ∈ grouped ds) :
    d ∈ ds ∨ ∃ f fs, d = requires f fs := by
  simp only [grouped, groupedFront, List.mem_append, mem_ofRank] at h
  rcases h with (((((((h | h) | h) | h) | h) | h) | h) | h) | h | h
  · exact .inr (mem_requiring h)
  all_goals exact .inl h.1

theorem nestingList_grouped_le (ds : List Decl) : nestingList (grouped ds) ≤ nestingList ds := by
  rw [nestingList_le_iff]
  intro d hd
  rcases mem_grouped hd with hd | ⟨f, fs, rfl⟩
  · exact nestingList_le_iff.mp (Nat.le_refl _) d hd
  · exact Nat.zero_le _

mutual

theorem nesting_written_le : ∀ d : Decl, d.written.nesting ≤ d.nesting
  | .regular e f name as ms => by
    rw [written, nesting, nesting]
    exact Nat.succ_le_succ (Nat.le_trans (nestingList_grouped_le _) (nestingList_writtenEach_le ms))
  | .inferred .. => Nat.le_refl _
  | .external .. => Nat.le_refl _
  | .requires .. | .header .. | .umbrellaDir .. | .exports .. | .exportAs .. | .use .. | .link .. |
    .configMacros .. | .conflict .. => Nat.le_refl _

theorem nestingList_writtenEach_le : ∀ ds : List Decl, nestingList (writtenEach ds) ≤ nestingList ds
  | [] => Nat.le_refl _
  | d :: ds => by
    have hd := nesting_written_le d
    have hds := nestingList_writtenEach_le ds
    rw [writtenEach, nestingList, nestingList]
    omega

end

/-! ### Legibility -/

theorem isBare_written (d : Decl) : d.written.isBare = d.isBare := by
  cases d <;> rfl

theorem rank_written (d : Decl) : d.written.rank = d.rank := by
  cases d <;> rfl

theorem rank_of_isBare {d : Decl} (h : d.isBare = true) : d.rank = 8 := by
  obtain ⟨as, rfl⟩ := exists_eq_of_isBare h
  rfl

/-- A declaration is bare if it lists macros, and none are given. -/
theorem isBare_eq_false_iff {d : Decl} :
    d.isBare = false ↔ ∀ c, d.configMacros? = some c → c.macros ≠ [] := by
  constructor
  · intro hbare c hc hnil
    cases d with
    | configMacros as ms =>
      cases hc
      obtain rfl : ms = [] := hnil
      cases hbare
    | requires | header | umbrellaDir | external | inferred | regular | exports | exportAs | use |
      link | conflict => cases hc
  · intro h
    by_contra hbare
    obtain ⟨as, rfl⟩ := exists_eq_of_isBare (Bool.not_eq_false _ ▸ hbare)
    exact h _ rfl rfl

theorem isBare_of_mem_groupedFront {ds : List Decl} {d : Decl} (h : d ∈ groupedFront ds) :
    d.isBare = false := by
  by_contra hbare
  have hr := rank_of_isBare (Bool.not_eq_false _ ▸ hbare)
  simp only [groupedFront, List.mem_append, mem_ofRank] at h
  rcases h with ((((((h | h) | h) | h) | h) | h) | h) | h
  · obtain ⟨f, fs, rfl⟩ := mem_requiring h
    cases hr
  all_goals omega

/-- Members that are legible as they stand are so when they are grouped, unless macros are left out
in front of a conflict. -/
theorem pairwise_grouped_iff {ds : List Decl} (h : ds.Pairwise fun d _ => d.isBare = false) :
    (grouped ds).Pairwise (fun d _ => d.isBare = false) ↔
      ofRank 9 ds = [] ∨ ∀ d ∈ ofRank 8 ds, d.isBare = false := by
  have hfront : (groupedFront ds).Pairwise fun d _ => d.isBare = false :=
    List.pairwise_of_forall_mem_list fun d hd _ _ => isBare_of_mem_groupedFront hd
  have h8 : (ofRank 8 ds).Pairwise fun d _ => d.isBare = false := h.filter _
  have h9 : (ofRank 9 ds).Pairwise fun d _ => d.isBare = false := h.filter _
  rw [grouped, List.pairwise_append, List.pairwise_append]
  constructor
  · rintro ⟨-, ⟨-, -, hback⟩, -⟩
    cases hnine : ofRank 9 ds with
    | nil => exact .inl rfl
    | cons c cs => exact .inr fun d hd => hback d hd c (by simp [hnine])
  · intro hsep
    refine ⟨hfront, ⟨h8, h9, fun d hd c hc => ?_⟩, fun d hd _ _ => isBare_of_mem_groupedFront hd⟩
    rcases hsep with hsep | hsep
    · rw [hsep] at hc
      cases hc
    · exact hsep d hd

theorem forall_mem_grouped_iff {p : Decl → Prop} (hp : ∀ f fs, p (requires f fs)) {ds : List Decl} :
    (∀ d ∈ grouped ds, p d) ↔ ∀ d ∈ ds, p d := by
  constructor
  · intro h d hd
    by_cases hr : d.rank = 0
    · cases d with
      | requires f fs => exact hp f fs
      | header | umbrellaDir | external | inferred | regular | exports | exportAs | use | link |
        configMacros | conflict => cases hr
    · apply h
      have hlt : d.rank < 10 := by cases d <;> simp [rank]
      simp only [grouped, groupedFront, List.mem_append, mem_ofRank, hd, true_and]
      omega
  · intro h d hd
    rcases mem_grouped hd with hd | ⟨f, fs, rfl⟩
    · exact h d hd
    · exact hp f fs

end Decl

/-! ### What makes a written module legible -/

/-- No list of macros is empty, or there are no conflicts that would stand behind it. -/
def ModuleInfo.Separates (i : ModuleInfo) : Prop :=
  i.conflicts = [] ∨ ∀ c ∈ i.configMacros, c.macros ≠ []

instance (i : ModuleInfo) : Decidable i.Separates := inferInstanceAs (Decidable (_ ∨ _))

theorem Module.walkList_append (ms ns : List Module) :
    walkList (ms ++ ns) = walkList ms ++ walkList ns := by
  induction ms with
  | nil => rfl
  | cons m ms ih => rw [List.cons_append, walkList, walkList, ih, List.append_assoc]

namespace Decl

theorem separates_ofMembers_iff (e f : Bool) (name : DottedName) (as : List String)
    (ds : List Decl) :
    (ModuleInfo.ofMembers e f name as ds).Separates ↔
      ofRank 9 ds = [] ∨ ∀ d ∈ ofRank 8 ds, d.isBare = false := by
  have hconflicts : ds.filterMap conflict? = [] ↔ ofRank 9 ds = [] := by
    rw [List.filterMap_eq_nil_iff, ofRank, List.filter_eq_nil_iff]
    refine forall₂_congr fun d _ => ?_
    rw [collects_conflict?.eq_none_iff, beq_iff_eq]
  have hmacros : (∀ c ∈ ds.filterMap configMacros?, c.macros ≠ []) ↔
      ∀ d ∈ ofRank 8 ds, d.isBare = false := by
    constructor
    · intro h d hd
      exact isBare_eq_false_iff.mpr fun c hc => h c (List.mem_filterMap.mpr ⟨d, (mem_ofRank.mp hd).1, hc⟩)
    · intro h c hc
      obtain ⟨d, hd, hdc⟩ := List.mem_filterMap.mp hc
      have hrank : d.rank = 8 := collects_configMacros?.rank_eq hdc
      exact isBare_eq_false_iff.mp (h d (mem_ofRank.mpr ⟨hd, hrank⟩)) c hdc
  exact or_congr hconflicts hmacros

theorem pairwise_writtenEach {ds : List Decl} (h : LegibleList ds) :
    (writtenEach ds).Pairwise fun d _ => d.isBare = false := by
  rw [writtenEach_eq_map, List.pairwise_map]
  simp only [isBare_written]
  exact (legibleList_iff.mp h).1

mutual

/-- A legible declaration is written legibly if each of its modules separates macros from
conflicts. -/
theorem legible_written_iff : ∀ d : Decl, d.Legible →
    (d.written.Legible ↔ ∀ sub ∈ Module.walkList d.module?.toList, sub.info.Separates)
  | .regular e f name as ms, h => by
    have hms := legibleList_writtenEach_iff ms (fun d hd => (legibleList_iff.mp h).2 d hd)
    have hgrouped : (∀ d ∈ grouped (writtenEach ms), d.Legible) ↔ ∀ d ∈ writtenEach ms, d.Legible :=
      forall_mem_grouped_iff fun _ _ => trivial
    rw [written, Legible, legibleList_iff, pairwise_grouped_iff (pairwise_writtenEach h), hgrouped,
      ← separates_ofMembers_iff e f name as, ofMembers_writtenEach, hms]
    simp [module?, Module.walkList, Module.walk]
  | .inferred e f as k, _ => by
    simp [written, Legible, module?, Module.walkList, Module.walk, ModuleInfo.Separates,
      ModuleInfo.inferred]
  | .external name file, _ => by
    simp [written, Legible, module?, Module.walkList, Module.walk, ModuleInfo.Separates,
      ModuleInfo.external]
  | .requires .., _ | .header .., _ | .umbrellaDir .., _ | .exports .., _ | .exportAs .., _ |
    .use .., _ | .link .., _ | .configMacros .., _ | .conflict .., _ => by
    simp [written, Legible, module?, Module.walkList]

theorem legibleList_writtenEach_iff : ∀ ds : List Decl, (∀ d ∈ ds, d.Legible) →
    ((∀ d ∈ writtenEach ds, d.Legible) ↔
      ∀ sub ∈ Module.walkList (Module.ofDecls ds), sub.info.Separates)
  | [], _ => by simp [writtenEach, Module.ofDecls, Module.walkList]
  | d :: ds, h => by
    have hd := legible_written_iff d (h d List.mem_cons_self)
    have hds := legibleList_writtenEach_iff ds fun d' hd' => h d' (List.mem_cons_of_mem d hd')
    rw [writtenEach, Module.ofDecls, Module.walkList_append, List.forall_mem_cons,
      List.forall_mem_append, hd, hds]

end

end Decl

end ModuleDeps
