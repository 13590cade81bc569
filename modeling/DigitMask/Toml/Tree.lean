import DigitMask.Toml.Value

/-! Building the tables of a document. Each addition finds its table by a path and is refused
where TOML lets a table be defined only once. -/
namespace DigitMask.Toml

/-- The names that lead to a table, and the name of what is in it. -/
structure Path where
  front : List String
  last : String
  deriving DecidableEq

def replaceEntry (key : String) (value : Value) (entries : Entries) : Entries :=
  entries.map fun entry => if entry.1 == key then (key, value) else entry

def addEntry? (key : String) (value : Value) (entries : Entries) : Option Entries :=
  match entries.lookup key with
  | none => some (entries ++ [(key, value)])
  | some _ => none

/-- Changes the table at the end of a path, making the tables on the way as needed. An array of
tables stands for its last one. A dotted key does not lead into a table with a header. -/
def changeAt? (dotted : Bool) (change : Origin → Entries → Option Entries) (origin : Origin) :
    List String → Entries → Option Entries
  | [], entries => change origin entries
  | key :: path, entries =>
    match entries.lookup key with
    | none => do
      let made : Origin := if dotted then .dottedKey else .headerPath
      return entries ++ [(key, .table made (← changeAt? dotted change made path []))]
    | some (.table origin inner) =>
      if origin = .inline ∨ (dotted ∧ origin = .header) then none
      else do
        return replaceEntry key (.table origin (← changeAt? dotted change origin path inner)) entries
    | some (.array true items) =>
      match items.getLast? with
      | some (.table origin inner) => do
        let last := Value.table origin (← changeAt? dotted change origin path inner)
        return replaceEntry key (.array true (items.dropLast ++ [last])) entries
      | _ => none
    | some _ => none

/-- Adds a value under a key. A dotted key adds to tables of dotted keys only. -/
def insert? (entries : Entries) (path : Path) (value : Value) : Option Entries :=
  changeAt? true
    (fun origin inner =>
      if path.front.isEmpty || origin = .dottedKey then addEntry? path.last value inner else none)
    .header path.front entries

def insertAll? (entries : Entries) (additions : List (Path × Value)) : Option Entries :=
  additions.foldlM (fun entries addition => insert? entries addition.1 addition.2) entries

structure Section where
  path : Path
  ofArray : Bool
  additions : List (Path × Value)

/-- Adds a table to the table that holds it. A header may follow on those of the table's
parts, but not on an earlier one of the same table. -/
def Section.place? (s : Section) (entries : Entries) : Option Entries :=
  match s.ofArray, entries.lookup s.path.last with
  | false, none => do
    addEntry? s.path.last (.table .header (← insertAll? [] s.additions)) entries
  | false, some (.table .headerPath inner) => do
    return replaceEntry s.path.last (.table .header (← insertAll? inner s.additions)) entries
  | true, none => do
    addEntry? s.path.last (.array true [.table .header (← insertAll? [] s.additions)]) entries
  | true, some (.array true items) => do
    let next := Value.table .header (← insertAll? [] s.additions)
    return replaceEntry s.path.last (.array true (items ++ [next])) entries
  | _, _ => none

def addSection? (entries : Entries) (s : Section) : Option Entries :=
  changeAt? false (fun _ inner => s.place? inner) .header s.path.front entries

end DigitMask.Toml
