import DigitMask.Locale.Error
import DigitMask.Locale.Table
import DigitMask.Toml.Document

/-! Locale groups in a document. Every entry of the document is a group: a table with the codes
of its locales and, where they differ from those of plain numerals, its symbols. The groups are
put in by the order of their names, so a later name takes over the codes of an earlier one. -/
namespace DigitMask.Locale

open Toml

/-- A group may leave a symbol out. -/
def symbol (group : Entries) (key : SymbolKey) (default : Char) : Except GroupFault Char :=
  match group.lookup key.name with
  | none => .ok default
  | some (.text text) =>
    match text.toList with
    | [c] => .ok c
    | _ => .error (.symbolNotSingle key)
  | some _ => .error (.symbolNotString key)

def code : Value → Except GroupFault String
  | .text code => .ok code
  | _ => .error .codeNotString

def codes (group : Entries) : Except GroupFault (List String) :=
  match group.lookup "codes" with
  | some (.array _ items) => items.mapM code
  | _ => .error .codesMissing

def readGroup : Value → Except GroupFault (Symbols × List String)
  | .table _ group => do
    let plain : Symbols := {}
    let decimal ← symbol group .decimal plain.decimal
    let separator ← symbol group .group plain.group
    let negative ← symbol group .negative plain.negative
    return ({ decimal, group := separator, negative }, ← codes group)
  | _ => .error .notTable

namespace Table

def insertGroup (table : Table) (group : String × Value) : Except Error Table :=
  match readGroup group.2 with
  | .ok (symbols, codes) => .ok (table.insertAll ⟨group.1, symbols⟩ codes)
  | .error fault => .error (.group group.1 fault)

/-- The groups of a document in ascending order of their names. -/
def inOrder (document : Entries) : Entries :=
  document.mergeSort fun a b => decide (a.1 ≤ b.1)

def ofDocument (document : Entries) : Except Error Table :=
  (inOrder document).foldlM insertGroup empty

def ofToml (text : String) : Except Error Table :=
  match parse? text with
  | some document => ofDocument document
  | none => .error .malformed

end Table
end DigitMask.Locale
