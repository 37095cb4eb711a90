import ModuleDeps.FileSystem

/-!
# When a modification time can be trusted

Moments and spans are kept in seconds and nanoseconds, with a carry between them, and a sum may lie
past the last moment. None of this shows: a file is within the slack exactly if, in whole
nanoseconds, its modification time and the slack together are not less than the present
(`withinSlack_exact`). A sum that is no moment lies past everything that is one
(`Moment.add?_eq_none_iff`), so it counts as within the slack, as it should.
-/

namespace ModuleDeps

namespace Moment

variable {t u : Moment} {d : Span}

/-- The start of the second that no moment lies in any more. -/
def horizon : Int := (maxSeconds + 1) * nanosPerSecond

theorem nanosSinceEpoch_lt_horizon (h : t.secs ≤ maxSeconds) : t.nanosSinceEpoch < horizon := by
  have hnanos := t.nanos_lt
  simp only [horizon, nanosSinceEpoch, maxSeconds, nanosPerSecond] at *
  omega

/-- There is no later moment exactly if the sum lies past all moments. The carry counts: the seconds
alone may still add up to a second that moments lie in. -/
theorem add?_eq_none_iff : t.add? d = none ↔ horizon ≤ t.nanosSinceEpoch + d.totalNanos := by
  simp only [add?, ite_eq_right_iff, reduceCtorEq, imp_false, Int.not_le]
  simp only [horizon, nanosSinceEpoch, Span.totalNanos, maxSeconds, nanosPerSecond]
  omega

end Moment

variable {mtime : Option Moment} {t now later : Moment} {slack slack' : Span}

/-- A file is beyond the slack if the slack has gone by since it was modified. -/
theorem withinSlack_eq_false_iff : withinSlack mtime slack now = false ↔
    ∃ t u, mtime = some t ∧ t.add? slack = some u ∧ u.nanosSinceEpoch < now.nanosSinceEpoch := by
  cases mtime with
  | none => simp [withinSlack]
  | some t =>
    cases hu : t.add? slack with
    | none => simp [withinSlack, hu]
    | some u => simp [withinSlack, hu, Moment.le_iff]

/-- What is beyond the slack was modified more than the slack ago. -/
theorem lt_of_withinSlack_eq_false (h : withinSlack mtime slack now = false) :
    ∃ t, mtime = some t ∧ t.nanosSinceEpoch + slack.totalNanos < now.nanosSinceEpoch := by
  obtain ⟨t, u, rfl, hu, hlt⟩ := withinSlack_eq_false_iff.mp h
  rw [Moment.nanosSinceEpoch_add? hu] at hlt
  exact ⟨t, rfl, hlt⟩

/-- What is beyond the slack stays beyond it. -/
theorem withinSlack_eq_false_mono (h : withinSlack mtime slack now = false) (hlater : now ≤ later) :
    withinSlack mtime slack later = false := by
  rw [withinSlack_eq_false_iff] at h ⊢
  obtain ⟨t, u, hmtime, hu, hlt⟩ := h
  exact ⟨t, u, hmtime, hu, Int.lt_of_lt_of_le hlt (Moment.le_iff.mp hlater)⟩

/-- What is within a slack is within each greater one. -/
theorem withinSlack_mono (h : withinSlack mtime slack now = true)
    (hslack : slack.totalNanos ≤ slack'.totalNanos) : withinSlack mtime slack' now = true := by
  cases hbeyond : withinSlack mtime slack' now with
  | true => rfl
  | false =>
    obtain ⟨t, u', rfl, hu', hlt⟩ := withinSlack_eq_false_iff.mp hbeyond
    have hsum' := Moment.nanosSinceEpoch_add? hu'
    cases hu : t.add? slack with
    | none =>
      -- the smaller sum would lie past all moments, and the greater one is a moment
      have hpast := Moment.add?_eq_none_iff.mp hu
      have hnone : t.add? slack' = none := Moment.add?_eq_none_iff.mpr (by omega)
      rw [hnone] at hu'
      cases hu'
    | some u =>
      have hsum := Moment.nanosSinceEpoch_add? hu
      have hfalse : withinSlack (some t) slack now = false :=
        withinSlack_eq_false_iff.mpr ⟨t, u, rfl, hu, by omega⟩
      rw [hfalse] at h
      cases h

/-- Seen at a moment, a file is within the slack exactly if its modification time and the slack are
not less than that moment. -/
theorem withinSlack_iff (hnow : now.secs ≤ Moment.maxSeconds) :
    withinSlack (some t) slack now = true ↔
      now.nanosSinceEpoch ≤ t.nanosSinceEpoch + slack.totalNanos := by
  have hend := Moment.nanosSinceEpoch_lt_horizon hnow
  cases hu : t.add? slack with
  | none =>
    have hsum := Moment.add?_eq_none_iff.mp hu
    simp only [withinSlack, hu, true_iff]
    omega
  | some u => simp [withinSlack, hu, Moment.le_iff, Moment.nanosSinceEpoch_add? hu]

/-- **The window of staleness is exact**: seen at a moment, a file is within a slack of some
milliseconds if and only if its modification time and the slack are not less than that moment, in
nanoseconds without bounds, and always if the time is not known. So a file that may be stale may be
so with a greater slack, and one that is beyond the slack at a moment is so at all later ones. -/
theorem withinSlack_exact (ms : Nat) :
    (∀ t now, now.secs ≤ Moment.maxSeconds →
      (withinSlack (some t) (.ofMillis ms) now = true ↔
        now.nanosSinceEpoch ≤ t.nanosSinceEpoch + ms * 1000000)) ∧
    (∀ now, withinSlack none (.ofMillis ms) now = true) ∧
    (∀ (s : FileStat) more, ms ≤ more → s.canBeStale (.ofMillis ms) = true →
      s.canBeStale (.ofMillis more) = true) ∧
    ∀ mtime now later, now ≤ later → withinSlack mtime (.ofMillis ms) now = false →
      withinSlack mtime (.ofMillis ms) later = false := by
  refine ⟨fun t now hnow => ?_, fun _ => rfl, fun s more hmore hs => ?_, fun mtime now later => ?_⟩
  · rw [withinSlack_iff hnow, Span.totalNanos_ofMillis, Int.natCast_mul]
    rfl
  · refine withinSlack_mono hs ?_
    rw [Span.totalNanos_ofMillis, Span.totalNanos_ofMillis]
    exact Nat.mul_le_mul_right _ hmore
  · exact fun hlater h => withinSlack_eq_false_mono h hlater

/-- The carry alone leads past the last moment. A file from before the start of 1970 is within a
millisecond at that start, but not a nanosecond after it or ever again. -/
theorem withinSlack_exact_edges :
    let last : Moment := ⟨Moment.maxSeconds, 999999999, by decide⟩
    let before : Moment := ⟨-1, 999000000, by decide⟩
    let start : Moment := ⟨0, 0, by decide⟩
    last.add? (.ofMillis 1) = none ∧ withinSlack (some last) (.ofMillis 1) last = true ∧
      withinSlack (some before) (.ofMillis 1) start = true ∧
      (FileStat.mk true false 0 (some before) start).canBeStale (.ofMillis 2) = true ∧
      withinSlack (some before) (.ofMillis 1) ⟨0, 1, by decide⟩ = false ∧
      withinSlack (some before) (.ofMillis 1) last = false := by
  intro last before start
  obtain ⟨hiff, -, hmore, hlater⟩ := withinSlack_exact 1
  have hstart : withinSlack (some before) (.ofMillis 1) start = true :=
    (hiff before start (by decide)).mpr (by decide)
  have hbeyond : withinSlack (some before) (.ofMillis 1) ⟨0, 1, by decide⟩ = false :=
    Bool.eq_false_iff.mpr fun h => absurd ((hiff before _ (by decide)).mp h) (by decide)
  refine ⟨by decide, (hiff last last (by decide)).mpr (by decide), hstart, ?_, hbeyond, ?_⟩
  · exact hmore (.mk true false 0 (some before) start) 2 (by decide) hstart
  · exact hlater (some before) _ last (by decide) hbeyond

end ModuleDeps
