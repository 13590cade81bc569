import DigitMask.Numeral.Basic
import DigitMask.Toml.Spacing

/-! Quoted text in a TOML document: between quotes with escapes, or between apostrophes as it
stands; between single ones on one line, between triple ones on several. -/
namespace DigitMask.Toml

def escaped? : Char → Option Char
  | 'b' => some '\x08'
  | 't' => some '\t'
  | 'n' => some '\n'
  | 'f' => some '\x0c'
  | 'r' => some '\r'
  | '"' => some '"'
  | '\\' => some '\\'
  | _ => none

def codePoint? (digits : List Char) : Option Char := do
  let values ← digits.mapM Radix.hexadecimal.digit?
  let code := Radix.hexadecimal.number values
  if code.isValidChar then some (Char.ofNat code) else none

/-- Reads up to the closing quote, after the reversed text `written`. While `joining`, a line
goes on after an escaped end of line. -/
def basicText (multiline joining : Bool) (written : List Char) :
    List Char → Option (String × List Char)
  | [] => none
  | '"' :: rest =>
    if !multiline then some (String.ofList written.reverse, rest)
    else
      match rest with
      | '"' :: '"' :: '"' :: '"' :: rest =>
        some (String.ofList ('"' :: '"' :: written).reverse, rest)
      | '"' :: '"' :: '"' :: rest => some (String.ofList ('"' :: written).reverse, rest)
      | '"' :: '"' :: rest => some (String.ofList written.reverse, rest)
      | rest => basicText multiline false ('"' :: written) rest
  | '\\' :: rest =>
    if multiline && (newline? (skipSpace rest)).isSome then
      basicText multiline true written rest
    else
      match rest with
      | 'u' :: a :: b :: c :: d :: rest =>
        match codePoint? [a, b, c, d] with
        | some character => basicText multiline false (character :: written) rest
        | none => none
      | 'U' :: a :: b :: c :: d :: e :: f :: g :: h :: rest =>
        match codePoint? [a, b, c, d, e, f, g, h] with
        | some character => basicText multiline false (character :: written) rest
        | none => none
      | letter :: rest =>
        match escaped? letter with
        | some character => basicText multiline false (character :: written) rest
        | none => none
      | [] => none
  | '\n' :: rest =>
    if multiline then basicText multiline joining (if joining then written else '\n' :: written) rest
    else none
  | '\r' :: '\n' :: rest =>
    if multiline then basicText multiline joining (if joining then written else '\n' :: written) rest
    else none
  | c :: rest =>
    if joining && isSpace c then basicText multiline true written rest
    else if isText c then basicText multiline false (c :: written) rest
    else none

def literalText (multiline : Bool) (written : List Char) :
    List Char → Option (String × List Char)
  | [] => none
  | '\'' :: rest =>
    if !multiline then some (String.ofList written.reverse, rest)
    else
      match rest with
      | '\'' :: '\'' :: '\'' :: '\'' :: rest =>
        some (String.ofList ('\'' :: '\'' :: written).reverse, rest)
      | '\'' :: '\'' :: '\'' :: rest => some (String.ofList ('\'' :: written).reverse, rest)
      | '\'' :: '\'' :: rest => some (String.ofList written.reverse, rest)
      | rest => literalText multiline ('\'' :: written) rest
  | '\n' :: rest => if multiline then literalText multiline ('\n' :: written) rest else none
  | '\r' :: '\n' :: rest => if multiline then literalText multiline ('\n' :: written) rest else none
  | c :: rest => if isText c then literalText multiline (c :: written) rest else none

/-- An end of line right after the opening quotes does not belong to the text. -/
def dropNewline (text : List Char) : List Char := (newline? text).getD text

def quoted? : List Char → Option (String × List Char)
  | '"' :: '"' :: '"' :: rest => basicText true false [] (dropNewline rest)
  | '"' :: rest => basicText false false [] rest
  | '\'' :: '\'' :: '\'' :: rest => literalText true [] (dropNewline rest)
  | '\'' :: rest => literalText false [] rest
  | _ => none

end DigitMask.Toml
