import SymbolicAlgebra.Number.Binary64

/-!
# Piecewise linear interpolation

A table of points defines a function that is linear between neighbouring points and constant
outside of them.
-/

namespace SymbolicAlgebra.Interpolation

/-- Halves a window of `count` points from `first` on until one is left: the upper half is kept when
its first point lies below `x`. -/
def narrow (points : Array (Float × Float)) (x : Float) (first count : Nat) : Nat :=
  if count ≤ 1 then first
  else
    let half := count / 2
    let middle := first + half
    let next := if (points.getD middle (0, 0)).1 < x then middle else first
    narrow points x next (count - half)
termination_by count

/-- The number of points that lie below `x`, for points in ascending order. -/
def countBelow (points : Array (Float × Float)) (x : Float) : Nat :=
  if points.size = 0 then 0
  else
    let last := narrow points x 0 points.size
    if (points.getD last (0, 0)).1 < x then last + 1 else last

/-- The value at `x` of the function through the points, which are in ascending order. It is clamped at
both ends. There is none where `x` lies neither before nor after the first point, which takes a NaN. -/
def interpolate? (points : List (Float × Float)) (x : Float) : Option Float :=
  match points with
  | [] => some (0.0 / 0.0)
  | first :: _ =>
    if x ≤ first.1 then some first.2
    else
      let table := points.toArray
      let upper := countBelow table x
      if table.size ≤ upper then some (table.getD (table.size - 1) first).2
      else if upper = 0 then none
      else
        let (x1, y1) := table.getD upper first
        let (x0, y0) := table.getD (upper - 1) first
        some (if x1 == x0 then y1 else y0 + (y1 - y0) * (x - x0) / (x1 - x0))

/-- The value at `x`, or a NaN where there is none. -/
def interpolate (points : List (Float × Float)) (x : Float) : Float :=
  (interpolate? points x).getD (0.0 / 0.0)

/-- Puts a point in front of all points with a larger first coordinate. -/
def insertPoint (p : Float × Float) : List (Float × Float) → List (Float × Float)
  | [] => [p]
  | q :: qs =>
    if Binary64.rank p.1 < Binary64.rank q.1 then p :: q :: qs else q :: insertPoint p qs

/-- The points by ascending first coordinate; points with the same one keep their order. -/
def sortPoints (points : List (Float × Float)) : List (Float × Float) :=
  points.foldl (fun sorted p => insertPoint p sorted) []

end SymbolicAlgebra.Interpolation
