import DigitMask.Decimal.Basic

/-! The shortest decimal that reads back as a magnitude. On each grid of multiples of a power of
ten only the two neighbours of the magnitude can be nearest to it, and the coarsest grid on
which one of them reads back has the fewest digits. -/
namespace DigitMask.Magnitude

/-- The magnitude in multiples of `10^exponent`, as a ratio. -/
def gridNum (m : Magnitude) (exponent : Int) : Nat := m.quanta * tenPow (-exponent).toNat
def gridDen (exponent : Int) : Nat := unit * tenPow exponent.toNat

def below (m : Magnitude) (exponent : Int) : Decimal :=
  ⟨m.gridNum exponent / gridDen exponent, exponent⟩

def above (m : Magnitude) (exponent : Int) : Decimal :=
  ⟨m.gridNum exponent / gridDen exponent + 1, exponent⟩

/-- The multiple of `10^exponent` that reads back as the magnitude: of two the nearer, of two
equally near ones the greater. -/
def onGrid (m : Magnitude) (exponent : Int) : Option Decimal :=
  let low := (m.below exponent).nearest == some m
  let high := (m.above exponent).nearest == some m
  let nearerLow := decide
    (2 * (m.gridNum exponent % gridDen exponent) < gridDen exponent)
  if low && (nearerLow || !high) then some (m.below exponent)
  else if high then some (m.above exponent)
  else none

/-- The exponents of the grids that come into question, the coarsest first: from the least power
of ten beyond the magnitude, or one for a fraction, to the last decimal place of a quantum. -/
def gridExponents (m : Magnitude) : List Int :=
  let first := if m.quanta < unit then 0 else (digits (m.quanta / unit)).length
  (List.range (first + 1075)).map fun i : Nat => (first : Int) - i

/-- Every magnitude is a multiple of the finest grid, so one of the grids always has a hit. -/
def shortest (m : Magnitude) : Decimal :=
  if m.quanta = 0 then ⟨0, 0⟩
  else (m.gridExponents.findSome? m.onGrid).getD (m.below (-1074))

theorem nearest_of_onGrid {m : Magnitude} {exponent : Int} {d : Decimal}
    (found : m.onGrid exponent = some d) : d.nearest = some m := by
  simp only [onGrid] at found
  split at found
  · next h => cases found; simp_all
  · split at found
    · next h => cases found; simpa using h
    · cases found

end DigitMask.Magnitude
