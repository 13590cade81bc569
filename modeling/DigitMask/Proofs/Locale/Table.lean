import DigitMask.Locale.Table
import DigitMask.Proofs.Text.Lowercase
import Mathlib.Logic.Basic

/-! What a table tells after codes were put in group by group: of every code what the last group
that holds it says. The symbols and the names of the groups are kept apart, and it is an invariant
that both are those of the same group. -/
namespace DigitMask.Locale

/-- A group as it is put into a table. -/
structure Listing where
  entry : Entry
  codes : List String

def Listing.Holds (listing : Listing) (code : String) : Prop :=
  lowercase code ∈ listing.codes.map lowercase

instance (listing : Listing) (code : String) : Decidable (listing.Holds code) :=
  inferInstanceAs (Decidable (_ ∈ _))

theorem Listing.holds_cons {entry : Entry} {put : String} {codes : List String} {code : String} :
    Holds ⟨entry, put :: codes⟩ code ↔
      Holds ⟨entry, codes⟩ code ∨ lowercase put = lowercase code := by
  rw [Holds, List.map_cons, List.mem_cons, or_comm, eq_comm, Holds]

/-- The last group that holds a code. -/
def lastHolder? (listings : List Listing) (code : String) : Option Listing :=
  listings.reverse.find? fun listing => decide (listing.Holds code)

section LastHolder

variable {listings : List Listing} {listing other : Listing} {code : String}

theorem lastHolder?_cons (listing : Listing) (listings : List Listing) (code : String) :
    lastHolder? (listing :: listings) code =
      (lastHolder? listings code).or (if listing.Holds code then some listing else none) := by
  rw [lastHolder?, List.reverse_cons, List.find?_append, List.find?_singleton, lastHolder?]
  simp only [decide_eq_true_eq]

theorem mem_of_lastHolder? (last : lastHolder? listings code = some listing) :
    listing ∈ listings :=
  List.mem_reverse.1 (List.mem_of_find?_eq_some last)

theorem holds_of_lastHolder? (last : lastHolder? listings code = some listing) :
    listing.Holds code := by
  simpa using List.find?_some (p := fun listing : Listing => decide (listing.Holds code)) last

/-- In an order of the groups the last one that holds a code is beyond all others that do. -/
theorem before_lastHolder? {before : Listing → Listing → Prop}
    (order : listings.Pairwise before) (last : lastHolder? listings code = some listing)
    (member : other ∈ listings) (holds : other.Holds code) :
    other = listing ∨ before other listing := by
  -- The search goes back from the end, so its list is reversed.
  obtain ⟨-, later, earlier, split, others⟩ := List.find?_eq_some_iff_append.1 last
  have split : listings = earlier.reverse ++ listing :: later.reverse := by
    rw [← List.reverse_reverse listings, split]
    simp
  rw [split] at order member
  rcases List.mem_append.1 member with first | rest
  · exact .inr ((List.pairwise_append.1 order).2.2 other first listing List.mem_cons_self)
  · rcases List.mem_cons.1 rest with same | rest
    · exact .inl same
    · have outside := others other (List.mem_reverse.1 rest)
      simp [holds] at outside

theorem lastHolder?_eq_none_iff :
    lastHolder? listings code = none ↔ ∀ listing ∈ listings, ¬ listing.Holds code := by
  simp [lastHolder?]

end LastHolder

namespace Table

/-- Both parts of a table tell the same of a code: nothing, or what an entry says. -/
structure Tells (table : Table) (code : String) (entry : Option Entry) : Prop where
  symbols : table.get? code = entry.map Entry.symbols
  group : table.groupOf? code = entry.map Entry.group

variable {table : Table} {code key : String} {known : Option Entry}

theorem tells_empty (code : String) : empty.Tells code none where
  symbols := by simp [empty, get?]
  group := by simp [empty, groupOf?]

theorem Tells.insert (tells : table.Tells code known) (put : String) (entry : Entry) :
    (table.insert put entry).Tells code
      (if lowercase put = lowercase code then some entry else known) := by
  constructor
  · rw [get?_insert, tells.symbols]
    split <;> rfl
  · rw [groupOf?_insert, tells.group]
    split <;> rfl

theorem Tells.insertAll (tells : table.Tells code known) (listing : Listing) :
    (table.insertAll listing.entry listing.codes).Tells code
      (if listing.Holds code then some listing.entry else known) := by
  obtain ⟨entry, codes⟩ := listing
  induction codes generalizing table known with
  | nil => exact tells
  | cons put codes ih =>
    have later := ih (tells.insert put entry)
    rwa [if_congr Listing.holds_cons rfl rfl, ite_or]

def insertEach (table : Table) (listings : List Listing) : Table :=
  listings.foldl (fun table listing => table.insertAll listing.entry listing.codes) table

theorem Tells.insertEach (tells : table.Tells code known) (listings : List Listing) :
    (table.insertEach listings).Tells code
      (((lastHolder? listings code).map Listing.entry).or known) := by
  induction listings generalizing table known with
  | nil => exact tells
  | cons listing listings ih =>
    have later := ih (tells.insertAll listing)
    have same : (if listing.Holds code then some listing.entry else known) =
        ((if listing.Holds code then some listing else none).map Listing.entry).or known := by
      split <;> rfl
    rwa [lastHolder?_cons, Option.map_or, Option.or_assoc, ← same]

theorem mem_codes_insert {put : String} {entry : Entry} :
    key ∈ (table.insert put entry).codes ↔ key = lowercase put ∨ key ∈ table.codes := by
  rw [insert, codes, Std.TreeMap.mem_keys, Std.TreeMap.mem_insert, Std.compare_eq_iff_eq, codes,
    Std.TreeMap.mem_keys, eq_comm]

theorem mem_codes_insertAll {entry : Entry} {codes : List String} :
    key ∈ (table.insertAll entry codes).codes ↔ key ∈ codes.map lowercase ∨ key ∈ table.codes := by
  induction codes generalizing table with
  | nil => simp [insertAll]
  | cons put codes ih =>
    rw [insertAll, List.foldl_cons, ← insertAll, ih, mem_codes_insert, List.map_cons,
      List.mem_cons, or_left_comm, or_assoc]

theorem mem_codes_insertEach {listings : List Listing} :
    key ∈ (table.insertEach listings).codes ↔
      (∃ listing ∈ listings, key ∈ listing.codes.map lowercase) ∨ key ∈ table.codes := by
  induction listings generalizing table with
  | nil => simp [insertEach]
  | cons listing listings ih =>
    rw [insertEach, List.foldl_cons, ← insertEach, ih, mem_codes_insertAll]
    simp only [List.mem_cons, exists_eq_or_imp]
    rw [or_left_comm, or_assoc]

theorem not_mem_codes_empty : key ∉ empty.codes := by
  rw [empty, codes, Std.TreeMap.mem_keys]
  exact Std.TreeMap.not_mem_emptyc

theorem nodup_codes (table : Table) : table.codes.Nodup := Std.TreeMap.nodup_keys

end Table

end DigitMask.Locale
