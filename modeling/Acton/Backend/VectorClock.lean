import Mathlib.Tactic

/-!
# Vector clocks

The versions of rows and cells. A clock is a list of node ids with a counter each; null pointers are
`none`.
-/

namespace Acton.Backend

abbrev VectorClock := List (ℤ × ℤ)

/-- The counters are written into the old clock if it has the same nodes. -/
def updateOrReplaceVc (dest : Option VectorClock) (src : VectorClock) : VectorClock :=
  match dest with
  | none => src
  | some vc =>
    if vc.length ≠ src.length ∨ vc.map Prod.fst ≠ src.map Prod.fst then src
    else vc.zipWith (fun d s => (d.1, s.2)) src

end Acton.Backend
