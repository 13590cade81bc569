import DigitMask.Binary64.Basic

/-! Arithmetic on binary64 numbers. Every result is the exact one, rounded once to the nearest
number, of two equally near ones to the even one. A zero keeps the sign of its operands as a
product does; an exact cancellation gives the positive zero. -/
namespace DigitMask.Binary64

def mul : Binary64 → Binary64 → Binary64
  | nan, _ | _, nan => nan
  | infinity a, infinity b => infinity (a != b)
  | infinity a, finite b m | finite a m, infinity b =>
    if m.quanta = 0 then nan else infinity (a != b)
  | finite a m, finite b n => ofQuanta (a != b) (m.quanta * n.quanta) unit

def div : Binary64 → Binary64 → Binary64
  | nan, _ | _, nan => nan
  | infinity _, infinity _ => nan
  | infinity a, finite b _ => infinity (a != b)
  | finite a _, infinity b => finite (a != b) .zero
  | finite a m, finite b n =>
    if n.quanta = 0 then
      if m.quanta = 0 then nan else infinity (a != b)
    else ofQuanta (a != b) (m.quanta * unit) n.quanta

def add : Binary64 → Binary64 → Binary64
  | nan, _ | _, nan => nan
  | infinity a, infinity b => if a = b then infinity a else nan
  | infinity a, finite _ _ => infinity a
  | finite _ _, infinity b => infinity b
  | finite a m, finite b n =>
    let sum := signed a m.quanta + signed b n.quanta
    if sum = 0 then finite (a && b) .zero else ofQuanta (decide (sum < 0)) sum.natAbs 1

def sub (x y : Binary64) : Binary64 := x.add y.neg

instance : Mul Binary64 := ⟨mul⟩
instance : Div Binary64 := ⟨div⟩
instance : Add Binary64 := ⟨add⟩
instance : Sub Binary64 := ⟨sub⟩
instance : Neg Binary64 := ⟨neg⟩

/-- The greatest integer not above the number; a negative zero stays one. -/
def floor : Binary64 → Binary64
  | finite false m => ofQuanta false (m.quanta / unit * unit) 1
  | finite true m => ofQuanta true ((m.quanta + (unit - 1)) / unit * unit) 1
  | x => x

def bits (n : Nat) : List Bool :=
  (List.range (n.log2 + 1)).map n.testBit

/-- The product of the powers `x`, `x^2`, `x^4`, ... that `digits` selects, taken in this
order with every product rounded. -/
def selectPowers (product x : Binary64) : List Bool → Binary64
  | [] => product
  | digit :: digits => selectPowers (if digit then product * x else product) (x * x) digits

def pow (x : Binary64) (n : Nat) : Binary64 := selectPowers (ofNat 1) x (bits n)

end DigitMask.Binary64
