import DigitMask.Binary64.Word
import DigitMask.Field
import DigitMask.Locale.Document
import DigitMask.Proofs.Pieces
import DigitMask.Proofs.Pattern.Decomposition
import DigitMask.Proofs.Pattern.Image
import DigitMask.Proofs.Binary64.Nearest
import DigitMask.Proofs.Binary64.Rational
import DigitMask.Proofs.Binary64.Value
import DigitMask.Proofs.Binary64.Power
import DigitMask.Proofs.Rounding
import DigitMask.Proofs.Decimal.Digit
import DigitMask.Proofs.Decimal.Shortest
import DigitMask.Proofs.Decimal.Plain
import DigitMask.Proofs.Display
import DigitMask.Proofs.Limit
import DigitMask.Proofs.Figure
import DigitMask.Proofs.Locale.Document
import DigitMask.Proofs.Locale.Order
import DigitMask.Proofs.Locale.Message
import DigitMask.Proofs.Locale.Groups
import DigitMask.Proofs.Locale.Uniform
import DigitMask.Proofs.Numeral.Value
import DigitMask.Proofs.Reading
import DigitMask.Proofs.RoundTrip
import DigitMask.Proofs.Stability
import DigitMask.Proofs.ReadBack
import DigitMask.Proofs.Order
import DigitMask.Proofs.Accuracy
import DigitMask.Proofs.Sign
import DigitMask.Proofs.Finite
import DigitMask.Proofs.Field
import DigitMask.Proofs.Cutting
import DigitMask.Proofs.Carry
import DigitMask.Proofs.Mirror
import DigitMask.Proofs.Unmasked
import DigitMask.Proofs.IntegerPart
import DigitMask.Proofs.FractionPart
import DigitMask.Proofs.Minus
import DigitMask.Proofs.Numeral.Radix
