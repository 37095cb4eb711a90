/-!
# Tables in the order of insertion

A table keeps values under keys, and beside them a queue of its keys in the order in which they
were first put in. A value that is put in under a key of the table takes the place of the old one
and leaves the queue alone; any other key goes to the end of the queue. The key that is taken out
is always the one at its front.

The map and the queue are separate. No operation looks into one of them to find what the other one
holds, so a table may be built in which they do not agree.
-/

namespace ModuleDeps

/-- Values under keys, and a queue of the keys. -/
structure Table (κ α : Type) where
  /-- The values, each with its key. -/
  entries : List (κ × α) := []
  /-- The keys in the order in which they were first put in. -/
  order : List κ := []
  deriving DecidableEq, Repr

namespace Table

variable {κ α : Type}

/-- The number of values. -/
def size (t : Table κ α) : Nat := t.entries.length

variable [DecidableEq κ]

/-- The value under a key. -/
def find? (t : Table κ α) (key : κ) : Option α := t.entries.lookup key

/-- Puts a value in: in place if its key is there, else as the newest. -/
def insert (t : Table κ α) (key : κ) (value : α) : Table κ α :=
  if (t.find? key).isSome then
    { t with entries := t.entries.map fun e => if e.1 = key then (key, value) else e }
  else
    { entries := t.entries ++ [(key, value)], order := t.order ++ [key] }

/-- Takes the oldest key out, with its value. -/
def popOldest? (t : Table κ α) : Option (κ × Table κ α) :=
  match t.order with
  | [] => none
  | key :: order => some (key, { entries := t.entries.filter fun e => e.1 ≠ key, order })

theorem length_order_of_popOldest? {t t' : Table κ α} {key : κ} (h : t.popOldest? = some (key, t')) :
    t'.order.length < t.order.length := by
  unfold popOldest? at h
  split at h
  · cases h
  · rename_i key' order horder
    cases h
    simp [horder]

/-- Takes out the oldest keys as long as there are more than `capacity` values, and tells which. -/
def evict (capacity : Nat) (t : Table κ α) : Table κ α × List κ :=
  if t.size ≤ capacity then
    (t, [])
  else
    match _h : t.popOldest? with
    | none => (t, [])
    | some (key, rest) =>
      let (left, keys) := evict capacity rest
      (left, key :: keys)
termination_by t.order.length
decreasing_by exact length_order_of_popOldest? _h

end Table

end ModuleDeps
