import DigitMask.Binary64.Magnitude

/-! Binary64 numbers: what is not a number, the infinities, and the finite numbers, which are
magnitudes with a sign. Every operation computes its exact result as a ratio of natural numbers
of quanta and hands it to `Binary64.ofQuanta`. -/
namespace DigitMask

inductive Binary64 where
  | nan
  | infinity (negative : Bool)
  | finite (negative : Bool) (magnitude : Magnitude)
  deriving DecidableEq

namespace Binary64

def zero : Binary64 := finite false .zero

/-- What has no nearest magnitude is an infinity. -/
def ofNearest (negative : Bool) : Option Magnitude → Binary64
  | some magnitude => finite negative magnitude
  | none => infinity negative

/-- The number nearest to `num / den` quanta with the given sign. -/
def ofQuanta (negative : Bool) (num den : Nat) : Binary64 :=
  ofNearest negative (Magnitude.nearest num den)

def ofNat (n : Nat) : Binary64 := ofQuanta false (n * unit) 1

def isNaN : Binary64 → Bool
  | nan => true
  | _ => false

def isFinite : Binary64 → Bool
  | finite _ _ => true
  | _ => false

def isZero : Binary64 → Bool
  | finite _ m => m.quanta == 0
  | _ => false

/-- The value in quanta; an infinity stands just beyond the finite numbers. -/
def position : Binary64 → Option Int
  | nan => none
  | infinity negative => some (signed negative overflow)
  | finite negative m => some (signed negative m.quanta)

/-- False when either side is not a number. The two zeros are equal. -/
def lt (x y : Binary64) : Bool :=
  match x.position, y.position with
  | some a, some b => decide (a < b)
  | _, _ => false

def le (x y : Binary64) : Bool :=
  match x.position, y.position with
  | some a, some b => decide (a ≤ b)
  | _, _ => false

def neg : Binary64 → Binary64
  | nan => nan
  | infinity negative => infinity (!negative)
  | finite negative m => finite (!negative) m

def abs : Binary64 → Binary64
  | nan => nan
  | infinity _ => infinity false
  | finite _ m => finite false m

@[simp] theorem ofQuanta_quanta (negative : Bool) (m : Magnitude) :
    ofQuanta negative m.quanta 1 = finite negative m := by
  rw [ofQuanta, Magnitude.nearest_quanta]; rfl

@[simp] theorem abs_neg (x : Binary64) : x.neg.abs = x.abs := by
  cases x <;> rfl

end Binary64
end DigitMask
