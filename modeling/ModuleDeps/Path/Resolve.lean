import ModuleDeps.Path

/-!
# Resolved paths

A path is resolved by name: dots go, and each `..` takes the name in front of it away. At the root
there is nothing above, and in front of a relative path `..` is kept, so a resolved path is the
shortest spelling of the place that the path leads to from any directory. Links are not followed.
-/

namespace ModuleDeps.Path

/-- The name `..`. -/
def dotDot : Name := [dot, dot]

/-- Goes on by one name from a place, the names on the way there being given last first. -/
def step (isAbsolute : Bool) (place : List Name) (n : Name) : List Name :=
  if n = dotDot then
    match place with
    | [] => if isAbsolute then [] else [dotDot]
    | last :: rest => if last = dotDot then dotDot :: last :: rest else rest
  else
    n :: place

/-- The names of the place that a path leads to. -/
def resolvedNames (p : Path) : List Name := (p.names.foldl (step p.isAbsolute) []).reverse

/-- The path without dots and without any `..` that has a name in front of it; `.` if nothing else
is left. -/
def resolve (p : Path) : Path :=
  if p.isAbsolute then ⟨slash :: joinNames p.resolvedNames⟩
  else if p.resolvedNames = [] then ⟨[dot]⟩
  else ⟨joinNames p.resolvedNames⟩

end ModuleDeps.Path
