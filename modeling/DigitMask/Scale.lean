import DigitMask.Binary64.Arithmetic

/-! Scaling by thousands. A number climbs the labels while it is at least a thousand times the
present factor and a label is left; the factors are products rounded in binary64. -/
namespace DigitMask

/-- How many labels a number has climbed, and by what it is divided there. -/
structure Scale where
  index : Nat
  factor : Binary64

namespace Scale

def thousand : Binary64 := .ofNat 1000

def climb (magnitude : Binary64) (scale : Scale) : Nat → Scale
  | 0 => scale
  | left + 1 =>
    let next := scale.factor * thousand
    if next.le magnitude then climb magnitude ⟨scale.index + 1, next⟩ left else scale

def of (value : Binary64) (labels : Nat) : Scale := climb value.abs ⟨0, .ofNat 1⟩ (labels - 1)

end Scale
end DigitMask
