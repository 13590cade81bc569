import DigitMask.Display
import DigitMask.Locale.Table
import DigitMask.Pattern.Parser
import DigitMask.Reading

/-! Numbers as text and back, under options that name a pattern and a locale. -/
namespace DigitMask

/-- None when there is nothing to show. -/
def formatNumber (options : Options) (value : Binary64) : Option String :=
  display (Pattern.parse options.pattern) (Locale.resolve options.locale) options value

def formatText (options : Options) (text : String) : Option String :=
  formatNumber options (.ofText text)

def parseNumber (options : Options) (text : String) : Binary64 :=
  (Locale.resolve options.locale).read text.toList

end DigitMask
