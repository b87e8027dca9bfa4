import OpFlow.Fault

/-!
Grids of threads in three dimensions. The linear index of a point counts `x` fastest and `z`
slowest.
-/
namespace OpFlow

/-- The extent of a grid, or a point in it. -/
structure Grid where
  x : Nat
  y : Nat
  z : Nat
  deriving DecidableEq, Repr, Inhabited

namespace Grid

def one : Grid := ⟨1, 1, 1⟩

/-- The number of points, or the largest word if there are more. -/
def count (g : Grid) : Nat := saturatingMul (saturatingMul g.x g.y) g.z

def point (g : Grid) (linear : Nat) : Grid :=
  let x := max g.x 1
  let y := max g.y 1
  ⟨linear % x, linear / x % y, linear / saturatingMul x y⟩

/-- The point of a linear index, computed with words. -/
def pointOnWords (g : Grid) (linear : Nat) : Except Fault Grid := do
  let x := if g.x = 0 then 1 else g.x
  let y := if g.y = 0 then 1 else g.y
  let column ← Word.rem linear x
  let row ← Word.rem (← Word.div linear x) y
  let plane ← Word.div linear (saturatingMul x y)
  return ⟨column, row, plane⟩

def describe (g : Grid) : String :=
  Text.record "ThreadDim" [("x", toString g.x), ("y", toString g.y), ("z", toString g.z)]

example : (⟨2, 3, 4⟩ : Grid).point 23 = ⟨1, 2, 3⟩ := by decide

end Grid

end OpFlow
