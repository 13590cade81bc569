import DigitMask.Toml.Moment
import DigitMask.Toml.Number
import DigitMask.Toml.Quoted
import DigitMask.Toml.Tree

/-! The statements of a TOML document: headers of tables and additions of values under keys. -/
namespace DigitMask.Toml

/-- How many brackets and braces may be open at once, and how many parts a key may have. -/
def maxDepth : Nat := 79

def isBareKey (c : Char) : Bool := c.isAlphanum || c == '_' || c == '-'

def simpleKey? : List Char → Option (String × List Char)
  | '"' :: rest => basicText false false [] rest
  | '\'' :: rest => literalText false [] rest
  | text =>
    let key := text.takeWhile isBareKey
    if key.isEmpty then none else some (String.ofList key, text.dropWhile isBareKey)

/-- Reads a key of at most `parts` parts, with the blanks around them. -/
def key? : Nat → List Char → Option (Path × List Char)
  | 0, _ => none
  | parts + 1, text => do
    let (name, rest) ← simpleKey? (skipSpace text)
    match skipSpace rest with
    | '.' :: rest =>
      let (path, rest) ← key? parts rest
      return (⟨name :: path.front, path.last⟩, rest)
    | rest => return (⟨[], name⟩, rest)

def keyValue? (value? : List Char → Option (Value × List Char)) (text : List Char) :
    Option ((Path × Value) × List Char) := do
  let (path, rest) ← key? maxDepth text
  let (value, rest) ← value? (skipSpace (← expect? '=' rest))
  return ((path, value), rest)

/-- The items of an array behind its bracket or a comma, fewer than `bound`. -/
def items? (value? : List Char → Option (Value × List Char)) :
    Nat → List Char → Option (List Value × List Char)
  | 0, _ => none
  | bound + 1, text =>
    match skipLines false text with
    | ']' :: rest => some ([], rest)
    | text => do
      let (item, rest) ← value? text
      match skipLines false rest with
      | ',' :: rest =>
        let (items, rest) ← items? value? bound rest
        return (item :: items, rest)
      | ']' :: rest => return ([item], rest)
      | _ => none

def pairs? (value? : List Char → Option (Value × List Char)) :
    Nat → List Char → Option (List (Path × Value) × List Char)
  | 0, _ => none
  | bound + 1, text => do
    let (pair, rest) ← keyValue? value? text
    match skipSpace rest with
    | ',' :: rest =>
      let (pairs, rest) ← pairs? value? bound rest
      return (pair :: pairs, rest)
    | '}' :: rest => return ([pair], rest)
    | _ => none

/-- Every item takes up a character, which bounds their number. -/
def array? (value? : List Char → Option (Value × List Char)) (text : List Char) :
    Option (Value × List Char) := do
  let (items, rest) ← items? value? (text.length + 1) text
  return (.array false items, rest)

def inlineTable? (value? : List Char → Option (Value × List Char)) (text : List Char) :
    Option (Value × List Char) :=
  match skipSpace text with
  | '}' :: rest => some (.table .inline [], rest)
  | text => do
    let (pairs, rest) ← pairs? value? text.length text
    return (.table .inline (← insertAll? [] pairs), rest)

def scalar? : List Char → Option (Value × List Char)
  | 't' :: 'r' :: 'u' :: 'e' :: rest => some (.boolean true, rest)
  | 'f' :: 'a' :: 'l' :: 's' :: 'e' :: rest => some (.boolean false, rest)
  | '"' :: rest => (quoted? ('"' :: rest)).map fun (text, rest) => (.text text, rest)
  | '\'' :: rest => (quoted? ('\'' :: rest)).map fun (text, rest) => (.text text, rest)
  | text =>
    match moment? text with
    | some result => result.map fun (moment, rest) => (.moment moment, rest)
    | none => number? text

/-- Reads a value in which at most `depth` brackets and braces are open at once. -/
def value? : Nat → List Char → Option (Value × List Char)
  | 0, text => scalar? text
  | depth + 1, '[' :: rest => array? (value? depth) rest
  | depth + 1, '{' :: rest => inlineTable? (value? depth) rest
  | _ + 1, text => scalar? text

inductive Statement where
  | header (path : Path) (ofArray : Bool)
  | addition (path : Path) (value : Value)

def statement? : List Char → Option (Statement × List Char)
  | '[' :: '[' :: rest => do
    let (path, rest) ← key? maxDepth rest
    return (.header path true, ← endLine? (← expect? ']' (← expect? ']' rest)))
  | '[' :: rest => do
    let (path, rest) ← key? maxDepth rest
    return (.header path false, ← endLine? (← expect? ']' rest))
  | text => do
    let ((path, value), rest) ← keyValue? (value? maxDepth) text
    return (.addition path value, ← endLine? rest)

/-- The statements of a text with fewer than `bound` lines. -/
def statements? : Nat → List Char → Option (List Statement)
  | 0, _ => none
  | bound + 1, text =>
    match skipSpace text with
    | [] => some []
    | '#' :: rest => do statements? bound (← endLine? ('#' :: rest))
    | text =>
      match newline? text with
      | some rest => statements? bound rest
      | none => do
        let (statement, rest) ← statement? text
        return statement :: (← statements? bound rest)

end DigitMask.Toml
