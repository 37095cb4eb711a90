/-!
# Times

A moment is counted in seconds and nanoseconds from the start of 1970, and the last moment is the
end of the second `maxSeconds`. Adding a span that leads past it gives no moment. `le_iff` and
`nanosSinceEpoch_add?` say that order and addition are those of whole nanoseconds.
-/

namespace ModuleDeps

/-- The nanoseconds of a second. -/
def nanosPerSecond : Nat := 1000000000

theorem nanosPerSecond_pos : 0 < nanosPerSecond := by decide

/-- A span of time. -/
structure Span where
  /-- Whole seconds. -/
  secs : Nat
  /-- Nanoseconds beyond them. -/
  nanos : Nat
  nanos_lt : nanos < nanosPerSecond
  deriving DecidableEq, Repr

namespace Span

/-- The span of a number of milliseconds. -/
def ofMillis (ms : Nat) : Span where
  secs := ms / 1000
  nanos := ms % 1000 * 1000000
  nanos_lt := by simp only [nanosPerSecond]; omega

/-- The span in nanoseconds. -/
def totalNanos (d : Span) : Nat := d.secs * nanosPerSecond + d.nanos

theorem totalNanos_ofMillis (ms : Nat) : (ofMillis ms).totalNanos = ms * 1000000 := by
  simp only [totalNanos, ofMillis, nanosPerSecond]; omega

end Span

/-- A moment. -/
structure Moment where
  /-- Whole seconds since the start of 1970, negative before it. -/
  secs : Int
  /-- Nanoseconds beyond them. -/
  nanos : Nat
  nanos_lt : nanos < nanosPerSecond := by decide
  deriving DecidableEq, Repr

namespace Moment

/-- The number of the last second that a moment can lie in. -/
def maxSeconds : Int := 9223372036854775807

/-- The moment in nanoseconds since the start of 1970. -/
def nanosSinceEpoch (t : Moment) : Int := t.secs * nanosPerSecond + t.nanos

/-- A moment is not later than another. -/
protected def le (t u : Moment) : Prop := t.secs < u.secs ∨ t.secs = u.secs ∧ t.nanos ≤ u.nanos

instance : LE Moment := ⟨Moment.le⟩

instance (t u : Moment) : Decidable (t ≤ u) :=
  inferInstanceAs (Decidable (t.secs < u.secs ∨ t.secs = u.secs ∧ t.nanos ≤ u.nanos))

theorem le_iff {t u : Moment} : t ≤ u ↔ t.nanosSinceEpoch ≤ u.nanosSinceEpoch := by
  have ht := t.nanos_lt
  have hu := u.nanos_lt
  change t.secs < u.secs ∨ t.secs = u.secs ∧ t.nanos ≤ u.nanos ↔ _
  simp only [nanosSinceEpoch, nanosPerSecond] at *
  omega

/-- The moment that lies a span later, if there is one. -/
def add? (t : Moment) (d : Span) : Option Moment :=
  let nanos := t.nanos + d.nanos
  let secs := t.secs + d.secs + ↑(nanos / nanosPerSecond)
  if secs ≤ maxSeconds then
    some ⟨secs, nanos % nanosPerSecond, Nat.mod_lt _ (by decide)⟩
  else
    none

theorem nanosSinceEpoch_add? {t u : Moment} {d : Span} (h : t.add? d = some u) :
    u.nanosSinceEpoch = t.nanosSinceEpoch + d.totalNanos := by
  simp only [add?, Option.ite_none_right_eq_some, Option.some.injEq] at h
  simp only [nanosSinceEpoch, Span.totalNanos, nanosPerSecond, ← h.2]
  omega

/-- The moment a number of whole seconds earlier. -/
def secondsBefore (t : Moment) (n : Nat) : Moment := { t with secs := t.secs - n }

end Moment

end ModuleDeps
