/-! How a number is shown. -/
namespace DigitMask

structure Options where
  pattern : String := "#,###.00"
  locale : String := "us"
  pointAlways : Bool := false
  /-- What is not a finite number is shown as zero. -/
  nanAsZero : Bool := true
  round : Bool := true
  scale : Bool := false
  labels : List String := ["", "K", "M", "B", "T"]
  /-- The label stands in place of the decimal point. -/
  labelAsPoint : Bool := false
  deriving DecidableEq

end DigitMask
