import DigitMask.Toml.Statement

/-! Reading a TOML document into the entries of its outermost table. -/
namespace DigitMask.Toml

/-- The additions before the first header, and the tables of the headers. -/
def sections : List Statement → List (Path × Value) × List Section
  | [] => ([], [])
  | .addition path value :: rest =>
    let (additions, tables) := sections rest
    ((path, value) :: additions, tables)
  | .header path ofArray :: rest =>
    let (additions, tables) := sections rest
    ([], ⟨path, ofArray, additions⟩ :: tables)

/-- The entries that statements build up, unless they define something twice. -/
def build? (statements : List Statement) : Option Entries := do
  let (additions, tables) := sections statements
  tables.foldlM addSection? (← insertAll? [] additions)

def dropMark : List Char → List Char
  | '\ufeff' :: rest => rest
  | text => text

def parse? (text : String) : Option Entries := do
  let chars := dropMark text.toList
  build? (← statements? (chars.length + 1) chars)

end DigitMask.Toml
