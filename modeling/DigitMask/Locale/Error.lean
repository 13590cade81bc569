/-! Why a code or a document of locale groups is refused. -/
namespace DigitMask.Locale

inductive SymbolKey where
  | decimal
  | group
  | negative
  deriving DecidableEq

def SymbolKey.name : SymbolKey → String
  | decimal => "decimal"
  | group => "group"
  | negative => "negative"

/-- What is wrong with the group of a name. -/
inductive GroupFault where
  | notTable
  | symbolNotString (key : SymbolKey)
  | symbolNotSingle (key : SymbolKey)
  | codesMissing
  | codeNotString
  deriving DecidableEq

def GroupFault.message (name : String) : GroupFault → String
  | notTable => name ++ " is not a table"
  | symbolNotString key => key.name ++ " in " ++ name ++ " is not a string"
  | symbolNotSingle key => key.name ++ " in " ++ name ++ " must be a single character"
  | codesMissing => "Missing or invalid codes in " ++ name
  | codeNotString => "Non-string locale code in " ++ name

inductive Error where
  | notFound (code : String)
  | malformed
  | group (name : String) (fault : GroupFault)
  deriving DecidableEq

def Error.message : Error → String
  | notFound code => "Locale not found: " ++ code
  | malformed => "TOML syntax"
  | group name fault => "Error parsing locale data: " ++ fault.message name

end DigitMask.Locale
