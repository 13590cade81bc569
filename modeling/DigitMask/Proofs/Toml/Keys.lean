import DigitMask.Toml.Document
import Mathlib.Data.List.Nodup

/-! The keys of a document. No table in it, however deep it lies, has two entries of one key: a key
is added only where it is not there yet, and whatever else is changed keeps the keys as they are. -/
namespace DigitMask.Toml

def keys (entries : Entries) : List String := entries.map Prod.fst

def Value.isScalar : Value → Bool
  | .array _ _ | .table _ _ => false
  | _ => true

/-- No table in a value has two entries of one key. -/
inductive Value.Distinct : Value → Prop where
  | scalar {value : Value} (scalar : value.isScalar = true) : Distinct value
  | array {ofHeaders : Bool} {items : List Value} (all : ∀ item ∈ items, Distinct item) :
      Distinct (.array ofHeaders items)
  | table {origin : Origin} {entries : Entries} (keys : (keys entries).Nodup)
      (values : ∀ entry ∈ entries, Distinct entry.2) : Distinct (.table origin entries)

/-- No two entries have the same key, and neither have those of a table in them. -/
structure Distinct (entries : Entries) : Prop where
  keys : (keys entries).Nodup
  values : ∀ entry ∈ entries, entry.2.Distinct

section Tree

variable {entries result : Entries} {key : String} {value : Value}

theorem not_mem_keys_iff : key ∉ keys entries ↔ entries.lookup key = none := by
  rw [List.lookup_eq_none_iff, keys, List.mem_map]
  constructor
  · intro free entry member
    exact bne_iff_ne.2 fun same => free ⟨entry, member, same.symm⟩
  · rintro free ⟨entry, member, rfl⟩
    simpa using free entry member

theorem mem_of_lookup (found : entries.lookup key = some value) : (key, value) ∈ entries := by
  obtain ⟨before, after, rfl, -⟩ := List.lookup_eq_some_iff.1 found
  exact List.mem_append_right _ List.mem_cons_self

theorem keys_replaceEntry : keys (replaceEntry key value entries) = keys entries := by
  rw [keys, replaceEntry, List.map_map]
  refine List.map_congr_left fun entry _ => ?_
  by_cases same : entry.1 = key
  · simp [same]
  · simp [same]

theorem Value.Distinct.inner {origin : Origin}
    (distinct : Value.Distinct (.table origin entries)) : Toml.Distinct entries := by
  obtain scalar | _ | ⟨keys, values⟩ := distinct
  · cases scalar
  · exact ⟨keys, values⟩

theorem Value.Distinct.item {ofHeaders : Bool} {items : List Value}
    (distinct : Value.Distinct (.array ofHeaders items)) {item : Value} (member : item ∈ items) :
    item.Distinct := by
  obtain scalar | all | _ := distinct
  · cases scalar
  · exact all item member

namespace Distinct

theorem table (distinct : Distinct entries) (origin : Origin) :
    Value.Distinct (.table origin entries) :=
  .table distinct.keys distinct.values

theorem nil : Distinct [] := ⟨List.nodup_nil, by simp⟩

theorem lookup (distinct : Distinct entries) (found : entries.lookup key = some value) :
    value.Distinct :=
  distinct.values _ (mem_of_lookup found)

theorem append (distinct : Distinct entries) (free : entries.lookup key = none)
    (inner : value.Distinct) : Distinct (entries ++ [(key, value)]) where
  keys := by
    rw [Toml.keys, List.map_append, List.nodup_append]
    refine ⟨distinct.keys, List.nodup_singleton _, fun a member b other => ?_⟩
    rw [List.map_singleton, List.mem_singleton] at other
    rw [other]
    exact ne_of_mem_of_not_mem member (not_mem_keys_iff.2 free)
  values := List.forall_mem_append.2 ⟨distinct.values, by simpa using inner⟩

theorem replaceEntry (distinct : Distinct entries) (inner : value.Distinct) :
    Distinct (replaceEntry key value entries) where
  keys := by rw [keys_replaceEntry]; exact distinct.keys
  values := by
    intro entry member
    obtain ⟨old, inside, rfl⟩ := List.mem_map.1 member
    split
    · exact inner
    · exact distinct.values old inside

theorem addEntry? (distinct : Distinct entries) (inner : value.Distinct)
    (added : addEntry? key value entries = some result) : Distinct result := by
  unfold Toml.addEntry? at added
  split at added
  · next free =>
    cases added
    exact distinct.append free inner
  · cases added

/-- What is kept by a change at the end of a path is kept all the way up. -/
theorem changeAt? {dotted : Bool} {change : Origin → Entries → Option Entries}
    (kept : ∀ origin inner result, change origin inner = some result → Distinct inner →
      Distinct result) {origin : Origin} {path : List String} (distinct : Distinct entries)
    (changed : changeAt? dotted change origin path entries = some result) : Distinct result := by
  induction path generalizing origin entries result with
  | nil => exact kept origin entries result changed distinct
  | cons key path ih =>
    unfold Toml.changeAt? at changed
    split at changed
    · next free =>
      obtain ⟨inner, made, ⟨⟩⟩ := Option.bind_eq_some_iff.1 changed
      exact distinct.append free ((ih nil made).table _)
    · next found =>
      split at changed
      · cases changed
      · obtain ⟨inner, altered, ⟨⟩⟩ := Option.bind_eq_some_iff.1 changed
        exact distinct.replaceEntry ((ih (distinct.lookup found).inner altered).table _)
    · next items found =>
      have all := distinct.lookup found
      split at changed
      · next made _ last =>
        obtain ⟨inner, altered, ⟨⟩⟩ := Option.bind_eq_some_iff.1 changed
        have table := (ih (all.item (List.mem_of_getLast? last)).inner altered).table made
        exact distinct.replaceEntry (.array (List.forall_mem_append.2
          ⟨fun item member => all.item (List.dropLast_subset _ member), by simpa using table⟩))
      · cases changed
    · cases changed

theorem insert? {path : Path} (distinct : Distinct entries) (inner : value.Distinct)
    (inserted : insert? entries path value = some result) : Distinct result := by
  refine distinct.changeAt? (fun origin inside result changed distinct => ?_) inserted
  split at changed
  · exact distinct.addEntry? inner changed
  · cases changed

/-- What every step of a run keeps the run keeps. -/
theorem foldlM {α : Type} {step : Entries → α → Option Entries} {run : List α}
    (kept : ∀ a ∈ run, ∀ entries result, Distinct entries → step entries a = some result →
      Distinct result) (distinct : Distinct entries)
    (built : run.foldlM step entries = some result) : Distinct result := by
  induction run generalizing entries with
  | nil => cases built; exact distinct
  | cons a run ih =>
    rw [List.foldlM_cons] at built
    obtain ⟨next, first, rest⟩ := Option.bind_eq_some_iff.1 built
    obtain ⟨head, tail⟩ := List.forall_mem_cons.1 kept
    exact ih tail (head entries next distinct first) rest

variable {additions : List (Path × Value)}

theorem insertAll? (values : ∀ addition ∈ additions, addition.2.Distinct)
    (distinct : Distinct entries) (inserted : insertAll? entries additions = some result) :
    Distinct result :=
  distinct.foldlM (fun addition member _ _ distinct => distinct.insert? (values addition member))
    inserted

theorem place? {s : Section} (values : ∀ addition ∈ s.additions, addition.2.Distinct)
    (distinct : Distinct entries) (placed : s.place? entries = some result) : Distinct result := by
  unfold Section.place? at placed
  split at placed
  · obtain ⟨inner, built, added⟩ := Option.bind_eq_some_iff.1 placed
    exact distinct.addEntry? ((nil.insertAll? values built).table _) added
  · next found =>
    obtain ⟨inner, built, ⟨⟩⟩ := Option.bind_eq_some_iff.1 placed
    have inside := (distinct.lookup found).inner
    exact distinct.replaceEntry ((inside.insertAll? values built).table _)
  · obtain ⟨inner, built, added⟩ := Option.bind_eq_some_iff.1 placed
    have table := (nil.insertAll? values built).table .header
    exact distinct.addEntry? (.array (by simpa using table)) added
  · next found =>
    have all := distinct.lookup found
    obtain ⟨inner, built, ⟨⟩⟩ := Option.bind_eq_some_iff.1 placed
    have table := (nil.insertAll? values built).table .header
    exact distinct.replaceEntry (.array (List.forall_mem_append.2
      ⟨fun item => all.item, by simpa using table⟩))
  · cases placed

theorem addSection? {s : Section} (values : ∀ addition ∈ s.additions, addition.2.Distinct)
    (distinct : Distinct entries) (added : addSection? entries s = some result) :
    Distinct result :=
  distinct.changeAt? (fun _ _ _ placed distinct => distinct.place? values placed) added

end Distinct

end Tree

section Reader

variable {text rest : List Char} {value : Value}

theorem isScalar_of_integer? {n : Int} (read : integer? n = some value) :
    value.isScalar = true := by
  obtain ⟨-, ⟨⟩⟩ := Option.ite_none_right_eq_some.1 read
  rfl

theorem isScalar_of_float? {negative : Bool} {decimal : Decimal}
    (read : float? negative decimal = some value) : value.isScalar = true := by
  obtain ⟨-, ⟨⟩⟩ := Option.ite_none_left_eq_some.1 read
  rfl

theorem isScalar_of_wholeNumber? {radix : Radix}
    (read : wholeNumber? radix text = some (value, rest)) : value.isScalar = true := by
  obtain ⟨⟨digits, after⟩, -, read⟩ := Option.bind_eq_some_iff.1 read
  obtain ⟨number, whole, ⟨⟩⟩ := Option.bind_eq_some_iff.1 read
  exact isScalar_of_integer? whole

theorem isScalar_of_decimalNumber? {negative : Bool}
    (read : decimalNumber? negative text = some (value, rest)) : value.isScalar = true := by
  obtain ⟨⟨integer, afterInteger⟩, -, read⟩ := Option.bind_eq_some_iff.1 read
  obtain ⟨⟨fraction, afterFraction⟩, -, read⟩ := Option.bind_eq_some_iff.1 read
  obtain ⟨⟨exponent, after⟩, -, read⟩ := Option.bind_eq_some_iff.1 read
  dsimp only at read
  split at read
  · obtain ⟨number, whole, ⟨⟩⟩ := Option.bind_eq_some_iff.1 read
    exact isScalar_of_integer? whole
  · obtain ⟨number, float, ⟨⟩⟩ := Option.bind_eq_some_iff.1 read
    exact isScalar_of_float? float

theorem isScalar_of_number? (read : number? text = some (value, rest)) :
    value.isScalar = true := by
  unfold number? at read
  split at read
  · exact isScalar_of_wholeNumber? read
  · exact isScalar_of_wholeNumber? read
  · exact isScalar_of_wholeNumber? read
  · split at read
    · cases read; rfl
    · cases read; rfl
    · exact isScalar_of_decimalNumber? read

theorem isScalar_of_scalar? (read : scalar? text = some (value, rest)) :
    value.isScalar = true := by
  unfold scalar? at read
  split at read
  · cases read; rfl
  · cases read; rfl
  · obtain ⟨_, -, ⟨⟩⟩ := Option.map_eq_some_iff.1 read; rfl
  · obtain ⟨_, -, ⟨⟩⟩ := Option.map_eq_some_iff.1 read; rfl
  · split at read
    · obtain ⟨_, -, ⟨⟩⟩ := Option.map_eq_some_iff.1 read; rfl
    · exact isScalar_of_number? read

/-- A reader of values, none of which has a table with two entries of one key. -/
def ReadsDistinct (value? : List Char → Option (Value × List Char)) : Prop :=
  ∀ text value rest, value? text = some (value, rest) → value.Distinct

namespace ReadsDistinct

variable {value? : List Char → Option (Value × List Char)} (reads : ReadsDistinct value?)
include reads

theorem keyValue? {addition : Path × Value}
    (read : keyValue? value? text = some (addition, rest)) : addition.2.Distinct := by
  obtain ⟨⟨path, afterPath⟩, -, read⟩ := Option.bind_eq_some_iff.1 read
  obtain ⟨afterSign, -, read⟩ := Option.bind_eq_some_iff.1 read
  obtain ⟨⟨value, after⟩, found, ⟨⟩⟩ := Option.bind_eq_some_iff.1 read
  exact reads _ _ _ found

theorem items? {bound : Nat} {items : List Value}
    (read : items? value? bound text = some (items, rest)) : ∀ item ∈ items, item.Distinct := by
  induction bound generalizing text items rest with
  | zero => cases read
  | succ bound ih =>
    unfold Toml.items? at read
    split at read
    · cases read; simp
    · obtain ⟨⟨item, after⟩, found, read⟩ := Option.bind_eq_some_iff.1 read
      have first := reads _ _ _ found
      dsimp only at read
      split at read
      · obtain ⟨⟨others, after⟩, more, ⟨⟩⟩ := Option.bind_eq_some_iff.1 read
        exact List.forall_mem_cons.2 ⟨first, ih more⟩
      · cases read; simpa using first
      · cases read

theorem pairs? {bound : Nat} {pairs : List (Path × Value)}
    (read : pairs? value? bound text = some (pairs, rest)) :
    ∀ addition ∈ pairs, addition.2.Distinct := by
  induction bound generalizing text pairs rest with
  | zero => cases read
  | succ bound ih =>
    obtain ⟨⟨addition, after⟩, found, read⟩ := Option.bind_eq_some_iff.1 read
    have first := reads.keyValue? found
    dsimp only at read
    split at read
    · obtain ⟨⟨others, after⟩, more, ⟨⟩⟩ := Option.bind_eq_some_iff.1 read
      exact List.forall_mem_cons.2 ⟨first, ih more⟩
    · cases read; simpa using first
    · cases read

theorem array? : ReadsDistinct (array? value?) := by
  intro text value rest read
  obtain ⟨⟨items, after⟩, found, ⟨⟩⟩ := Option.bind_eq_some_iff.1 read
  exact .array (reads.items? found)

theorem inlineTable? : ReadsDistinct (inlineTable? value?) := by
  intro text value rest read
  unfold Toml.inlineTable? at read
  split at read
  · cases read
    exact Distinct.nil.table _
  · obtain ⟨⟨pairs, after⟩, found, read⟩ := Option.bind_eq_some_iff.1 read
    obtain ⟨entries, built, ⟨⟩⟩ := Option.bind_eq_some_iff.1 read
    exact (Distinct.nil.insertAll? (reads.pairs? found) built).table _

end ReadsDistinct

theorem readsDistinct_value? (depth : Nat) : ReadsDistinct (value? depth) := by
  induction depth with
  | zero => exact fun text value rest read => .scalar (isScalar_of_scalar? read)
  | succ depth ih =>
    intro text value rest read
    unfold value? at read
    split at read
    · contradiction
    · next same => cases same; exact ih.array? _ _ _ read
    · next same => cases same; exact ih.inlineTable? _ _ _ read
    · exact .scalar (isScalar_of_scalar? read)

/-- What a statement adds has no table with two entries of one key. -/
def Statement.Distinct : Statement → Prop
  | .header _ _ => True
  | .addition _ value => value.Distinct

theorem distinct_statement? {statement : Statement}
    (read : statement? text = some (statement, rest)) : statement.Distinct := by
  unfold statement? at read
  split at read
  · obtain ⟨_, -, read⟩ := Option.bind_eq_some_iff.1 read
    obtain ⟨_, -, read⟩ := Option.bind_eq_some_iff.1 read
    obtain ⟨_, -, read⟩ := Option.bind_eq_some_iff.1 read
    obtain ⟨_, -, ⟨⟩⟩ := Option.bind_eq_some_iff.1 read
    trivial
  · obtain ⟨_, -, read⟩ := Option.bind_eq_some_iff.1 read
    obtain ⟨_, -, read⟩ := Option.bind_eq_some_iff.1 read
    obtain ⟨_, -, ⟨⟩⟩ := Option.bind_eq_some_iff.1 read
    trivial
  · obtain ⟨⟨addition, after⟩, found, read⟩ := Option.bind_eq_some_iff.1 read
    obtain ⟨_, -, ⟨⟩⟩ := Option.bind_eq_some_iff.1 read
    exact (readsDistinct_value? maxDepth).keyValue? found

theorem distinct_statements? {bound : Nat} {statements : List Statement}
    (read : statements? bound text = some statements) :
    ∀ statement ∈ statements, statement.Distinct := by
  induction bound generalizing text statements with
  | zero => cases read
  | succ bound ih =>
    unfold statements? at read
    split at read
    · cases read; simp
    · obtain ⟨after, -, read⟩ := Option.bind_eq_some_iff.1 read
      exact ih read
    · split at read
      · exact ih read
      · obtain ⟨⟨statement, after⟩, found, read⟩ := Option.bind_eq_some_iff.1 read
        obtain ⟨others, more, ⟨⟩⟩ := Option.bind_eq_some_iff.1 read
        exact List.forall_mem_cons.2 ⟨distinct_statement? found, ih more⟩

theorem distinct_sections {statements : List Statement}
    (all : ∀ statement ∈ statements, statement.Distinct) :
    (∀ addition ∈ (sections statements).1, addition.2.Distinct) ∧
      ∀ s ∈ (sections statements).2, ∀ addition ∈ s.additions, addition.2.Distinct := by
  induction statements with
  | nil => simp [sections]
  | cons statement statements ih =>
    obtain ⟨first, rest⟩ := List.forall_mem_cons.1 all
    obtain ⟨additions, tables⟩ := ih rest
    cases statement with
    | addition path value => exact ⟨List.forall_mem_cons.2 ⟨first, additions⟩, tables⟩
    | header path ofArray => exact ⟨by simp [sections], List.forall_mem_cons.2 ⟨additions, tables⟩⟩

/-- No table of a document has two entries of one key. -/
theorem distinct_parse? {document : Entries} {text : String}
    (read : parse? text = some document) : Distinct document := by
  obtain ⟨statements, spelled, built⟩ := Option.bind_eq_some_iff.1 read
  obtain ⟨outermost, inserted, added⟩ := Option.bind_eq_some_iff.1 built
  obtain ⟨additions, tables⟩ := distinct_sections (distinct_statements? spelled)
  exact (Distinct.nil.insertAll? additions inserted).foldlM
    (fun s member _ _ distinct => distinct.addSection? (tables s member)) added

end Reader

/-- No two entries of a document have the same key. -/
theorem nodup_parse? {document : Entries} {text : String} (read : parse? text = some document) :
    (keys document).Nodup :=
  (distinct_parse? read).keys

end DigitMask.Toml
