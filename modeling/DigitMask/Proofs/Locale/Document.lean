import DigitMask.Locale.Document
import DigitMask.Proofs.Locale.Table
import DigitMask.Proofs.Toml.Keys
import Mathlib

/-! What a document of locale groups says, and that a table read from it tells just that: of every
code what the last group says that holds it, in the order of the names of the groups. -/
namespace DigitMask

theorem exceptBind_eq_ok_iff {ε α β : Type} {x : Except ε α} {f : α → Except ε β} {b : β} :
    x >>= f = .ok b ↔ ∃ a, x = .ok a ∧ f a = .ok b := by
  constructor
  · intro bound
    cases x with
    | error => cases bound
    | ok a => exact ⟨a, rfl, bound⟩
  · rintro ⟨a, rfl, next⟩
    exact next

namespace Locale

open Toml

/-- The symbol of a group under a key: the one it gives, or else the plain one. -/
inductive Gives (group : Entries) (key : SymbolKey) (plain : Char) : Char → Prop where
  | plain (missing : group.lookup key.name = none) : Gives group key plain plain
  | given {text : String} {c : Char} (found : group.lookup key.name = some (.text text))
      (single : text.toList = [c]) : Gives group key plain c

/-- What a value says as a group: it is a table with an array of codes. -/
inductive Describes : Value → Symbols → List String → Prop where
  | table {origin : Origin} {group : Entries} {symbols : Symbols} {ofHeaders : Bool}
      {codes : List String} (decimal : Gives group .decimal '.' symbols.decimal)
      (separator : Gives group .group ',' symbols.group)
      (negative : Gives group .negative '-' symbols.negative)
      (listed : group.lookup "codes" = some (.array ofHeaders (codes.map .text))) :
      Describes (.table origin group) symbols codes

theorem symbol_eq_ok_iff {group : Entries} {key : SymbolKey} {plain c : Char} :
    symbol group key plain = .ok c ↔ Gives group key plain c := by
  constructor
  · intro read
    unfold symbol at read
    split at read
    · next missing =>
      cases read
      exact .plain missing
    · next found =>
      split at read
      · next single =>
        cases read
        exact .given found single
      · cases read
    · cases read
  · rintro (missing | ⟨found, single⟩)
    · rw [symbol, missing]
    · simp only [symbol, found, single]

theorem code_eq_ok_iff {value : Value} {text : String} :
    code value = .ok text ↔ value = .text text := by
  constructor
  · intro read
    unfold code at read
    split at read <;> cases read
    rfl
  · rintro rfl
    rfl

theorem mapM_code_eq_ok_iff {items : List Value} {codes : List String} :
    items.mapM code = .ok codes ↔ items = codes.map .text := by
  induction items generalizing codes with
  | nil =>
    rw [List.mapM_nil, eq_comm (a := []), List.map_eq_nil_iff]
    exact ⟨fun same => by cases same; rfl, fun same => by rw [same]; rfl⟩
  | cons item items ih =>
    rw [List.mapM_cons, exceptBind_eq_ok_iff]
    simp only [exceptBind_eq_ok_iff, code_eq_ok_iff, ih]
    constructor
    · rintro ⟨text, rfl, texts, rfl, ⟨⟩⟩
      rfl
    · intro same
      cases codes with
      | nil => cases same
      | cons text texts =>
        cases same
        exact ⟨text, rfl, texts, rfl, rfl⟩

theorem codes_eq_ok_iff {group : Entries} {texts : List String} :
    codes group = .ok texts ↔
      ∃ ofHeaders, group.lookup "codes" = some (.array ofHeaders (texts.map .text)) := by
  constructor
  · intro read
    unfold codes at read
    split at read
    · next ofHeaders items found =>
      rw [mapM_code_eq_ok_iff.1 read] at found
      exact ⟨ofHeaders, found⟩
    · cases read
  · rintro ⟨ofHeaders, found⟩
    rw [codes, found]
    exact mapM_code_eq_ok_iff.2 rfl

theorem readGroup_eq_ok_iff {value : Value} {symbols : Symbols} {texts : List String} :
    readGroup value = .ok (symbols, texts) ↔ Describes value symbols texts := by
  constructor
  · intro read
    unfold readGroup at read
    split at read
    · next origin group =>
      obtain ⟨decimal, first, read⟩ := exceptBind_eq_ok_iff.1 read
      obtain ⟨separator, second, read⟩ := exceptBind_eq_ok_iff.1 read
      obtain ⟨negative, third, read⟩ := exceptBind_eq_ok_iff.1 read
      obtain ⟨listed, fourth, ⟨⟩⟩ := exceptBind_eq_ok_iff.1 read
      obtain ⟨ofHeaders, found⟩ := codes_eq_ok_iff.1 fourth
      exact .table (symbol_eq_ok_iff.1 first) (symbol_eq_ok_iff.1 second)
        (symbol_eq_ok_iff.1 third) found
    · cases read
  · rintro ⟨decimal, separator, negative, listed⟩
    rw [readGroup]
    refine exceptBind_eq_ok_iff.2 ⟨_, symbol_eq_ok_iff.2 decimal, ?_⟩
    refine exceptBind_eq_ok_iff.2 ⟨_, symbol_eq_ok_iff.2 separator, ?_⟩
    refine exceptBind_eq_ok_iff.2 ⟨_, symbol_eq_ok_iff.2 negative, ?_⟩
    exact exceptBind_eq_ok_iff.2 ⟨_, codes_eq_ok_iff.2 ⟨_, listed⟩, rfl⟩

/-- The name of a group with what the group says, as it is put into a table. -/
structure Lists (group : String × Value) (listing : Listing) : Prop where
  name : listing.entry.group = group.1
  describes : Describes group.2 listing.entry.symbols listing.codes

namespace Table

theorem insertGroup_eq_ok_iff {table next : Table} {group : String × Value} :
    insertGroup table group = .ok next ↔
      ∃ listing, Lists group listing ∧ next = table.insertAll listing.entry listing.codes := by
  constructor
  · intro put
    unfold insertGroup at put
    split at put
    · next symbols texts read =>
      cases put
      exact ⟨⟨⟨group.1, symbols⟩, texts⟩, ⟨rfl, readGroup_eq_ok_iff.1 read⟩, rfl⟩
    · cases put
  · rintro ⟨⟨⟨name, symbols⟩, texts⟩, ⟨rfl, describes⟩, rfl⟩
    rw [insertGroup, readGroup_eq_ok_iff.2 describes]

theorem foldlM_insertGroup_eq_ok_iff {groups : Entries} {table result : Table} :
    groups.foldlM insertGroup table = .ok result ↔
      ∃ listings, List.Forall₂ Lists groups listings ∧ result = table.insertEach listings := by
  induction groups generalizing table with
  | nil =>
    constructor
    · rintro ⟨⟩
      exact ⟨[], .nil, rfl⟩
    · rintro ⟨listings, ⟨⟩, rfl⟩
      rfl
  | cons group groups ih =>
    rw [List.foldlM_cons, exceptBind_eq_ok_iff]
    simp only [insertGroup_eq_ok_iff, ih]
    constructor
    · rintro ⟨next, ⟨listing, lists, rfl⟩, listings, all, rfl⟩
      exact ⟨listing :: listings, .cons lists all, rfl⟩
    · rintro ⟨listings, all, rfl⟩
      cases all with
      | cons lists rest => exact ⟨_, ⟨_, lists, rfl⟩, _, rest, rfl⟩

theorem mem_inOrder {document : Entries} {group : String × Value} :
    group ∈ inOrder document ↔ group ∈ document :=
  (List.mergeSort_perm document _).mem_iff

theorem pairwise_inOrder {document : Entries} (distinct : (keys document).Nodup) :
    (inOrder document).Pairwise fun a b => a.1 < b.1 := by
  have ordered : (inOrder document).Pairwise fun a b => a.1 ≤ b.1 := by
    refine (List.pairwise_mergeSort (fun a b c => ?_) (fun a b => ?_) document).imp
      fun sorted => of_decide_eq_true sorted
    · simpa using fun first second => String.le_trans first second
    · simpa using String.le_total a.1 b.1
  have different : ((inOrder document).map Prod.fst).Nodup :=
    ((List.mergeSort_perm document _).map Prod.fst).nodup_iff.2 distinct
  exact ordered.imp₂ (fun a b le ne => String.not_le.1 fun ge => ne (String.le_antisymm le ge))
    (List.pairwise_map.1 different)

end Table

section Listed

variable {α β : Type} {R : α → β → Prop} {l : List α} {k : List β}

theorem exists_mem_right (related : List.Forall₂ R l k) {a : α} (member : a ∈ l) :
    ∃ b ∈ k, R a b := by
  induction related with
  | nil => cases member
  | cons head tail ih =>
    rcases List.mem_cons.1 member with rfl | member
    · exact ⟨_, List.mem_cons_self, head⟩
    · obtain ⟨b, inside, holds⟩ := ih member
      exact ⟨b, List.mem_cons_of_mem _ inside, holds⟩

theorem exists_mem_left (related : List.Forall₂ R l k) {b : β} (member : b ∈ k) :
    ∃ a ∈ l, R a b :=
  exists_mem_right (R := flip R) related.flip member

theorem pairwise_right (related : List.Forall₂ R l k) {before : α → α → Prop}
    {after : β → β → Prop} (carried : ∀ a a' b b', R a b → R a' b' → before a a' → after b b')
    (order : l.Pairwise before) : k.Pairwise after := by
  induction related with
  | nil => exact .nil
  | cons head tail ih =>
    obtain ⟨first, rest⟩ := List.pairwise_cons.1 order
    refine List.pairwise_cons.2 ⟨fun b member => ?_, ih rest⟩
    obtain ⟨a, inside, related⟩ := exists_mem_left tail member
    exact carried _ _ _ _ head related (first a inside)

end Listed

theorem Describes.unique {value : Value} {symbols symbols' : Symbols} {codes codes' : List String}
    (first : Describes value symbols codes) (second : Describes value symbols' codes') :
    symbols = symbols' ∧ codes = codes' := by
  have same := (readGroup_eq_ok_iff.2 first).symm.trans (readGroup_eq_ok_iff.2 second)
  cases same
  exact ⟨rfl, rfl⟩

/-- A group holds its codes in any case. -/
def Holds (value : Value) (code : String) : Prop :=
  ∃ symbols codes, Describes value symbols codes ∧ lowercase code ∈ codes.map lowercase

theorem Lists.holds_iff {group : String × Value} {listing : Listing} (lists : Lists group listing)
    (code : String) : Holds group.2 code ↔ listing.Holds code := by
  constructor
  · rintro ⟨symbols, codes, describes, inside⟩
    rw [(describes.unique lists.describes).2] at inside
    exact inside
  · exact fun inside => ⟨_, _, lists.describes, inside⟩

/-- The last group that holds a code, in the order of the names. Names are compared by code points,
which is the order of their bytes in UTF-8. -/
structure IsLastHolder (document : Entries) (code : String) (group : String × Value) : Prop where
  member : group ∈ document
  holds : Holds group.2 code
  last : ∀ other ∈ document, Holds other.2 code → other = group ∨ other.1 < group.1

/-- The groups of a document as they are put into a table. -/
structure Transcribes (document : Entries) (listings : List Listing) : Prop where
  all : ∀ group ∈ document, ∃ listing ∈ listings, Lists group listing
  only : ∀ listing ∈ listings, ∃ group ∈ document, Lists group listing
  order : listings.Pairwise fun a b => a.entry.group < b.entry.group

namespace Transcribes

variable {document : Entries} {listings : List Listing} {code : String}

theorem not_holds (transcribes : Transcribes document listings)
    (none : lastHolder? listings code = none) (group : String × Value) (member : group ∈ document) :
    ¬ Holds group.2 code := by
  obtain ⟨listing, inside, lists⟩ := transcribes.all group member
  rw [lists.holds_iff]
  exact lastHolder?_eq_none_iff.1 none listing inside

theorem isLastHolder (transcribes : Transcribes document listings)
    (distinct : (keys document).Nodup) {listing : Listing}
    (last : lastHolder? listings code = some listing) :
    ∃ group, IsLastHolder document code group ∧ Lists group listing := by
  obtain ⟨group, member, lists⟩ := transcribes.only listing (mem_of_lastHolder? last)
  refine ⟨group, ⟨member, (lists.holds_iff code).2 (holds_of_lastHolder? last), ?_⟩, lists⟩
  intro other inside holds
  -- Two groups with one listing have the same name, and a document has each name once.
  obtain ⟨listing', inside', lists'⟩ := transcribes.all other inside
  rcases before_lastHolder? transcribes.order last inside' ((lists'.holds_iff code).1 holds)
    with rfl | less
  · exact .inl (List.inj_on_of_nodup_map distinct inside member (lists'.name.symm.trans lists.name))
  · rw [lists.name, lists'.name] at less
    exact .inr less

end Transcribes

/-- What a table knows is what a document says. -/
structure Table.Means (table : Table) (document : Entries) : Prop where
  groups : ∀ group ∈ document, ∃ symbols codes, Describes group.2 symbols codes
  /-- A code that no group holds is unknown. Any other is one of the last group that holds it. -/
  tells : ∀ code, (∀ group ∈ document, ¬ Holds group.2 code) ∧
      table.get? code = none ∧ table.groupOf? code = none ∨
    ∃ name value symbols codes, IsLastHolder document code (name, value) ∧
      Describes value symbols codes ∧ table.get? code = some symbols ∧
      table.groupOf? code = some name
  mem_codes : ∀ key, key ∈ table.codes ↔ ∃ group ∈ document, ∃ symbols codes,
    Describes group.2 symbols codes ∧ key ∈ codes.map lowercase
  nodup_codes : table.codes.Nodup
  found : ∀ key ∈ table.codes, ∃ symbols name, table.get? key = some symbols ∧
    table.groupOf? key = some name

namespace Table

variable {document : Entries} {table : Table}

theorem transcribes_of_ofDocument (distinct : (keys document).Nodup)
    (read : ofDocument document = .ok table) :
    ∃ listings, Transcribes document listings ∧ table = empty.insertEach listings := by
  obtain ⟨listings, all, rfl⟩ := foldlM_insertGroup_eq_ok_iff.1 read
  refine ⟨listings, ⟨fun group member => exists_mem_right all (mem_inOrder.2 member),
    fun listing member => ?_, ?_⟩, rfl⟩
  · obtain ⟨group, inside, lists⟩ := exists_mem_left all member
    exact ⟨group, mem_inOrder.1 inside, lists⟩
  · refine pairwise_right all (fun a b listing later lists lists' less => ?_)
      (pairwise_inOrder distinct)
    rwa [lists.name, lists'.name]

theorem means_of_ofDocument (distinct : (keys document).Nodup)
    (read : ofDocument document = .ok table) : table.Means document := by
  obtain ⟨listings, transcribes, rfl⟩ := transcribes_of_ofDocument distinct read
  have told (code : String) := (tells_empty code).insertEach listings
  have listed (key : String) : key ∈ (empty.insertEach listings).codes ↔
      ∃ listing ∈ listings, key ∈ listing.codes.map lowercase := by
    rw [mem_codes_insertEach, or_iff_left not_mem_codes_empty]
  constructor
  · intro group member
    obtain ⟨listing, -, lists⟩ := transcribes.all group member
    exact ⟨_, _, lists.describes⟩
  · intro code
    have told := told code
    cases last : lastHolder? listings code with
    | none =>
      rw [last] at told
      exact .inl ⟨transcribes.not_holds last, told.symbols, told.group⟩
    | some listing =>
      obtain ⟨⟨name, value⟩, holder, lists⟩ := transcribes.isLastHolder distinct last
      rw [last] at told
      exact .inr ⟨name, value, _, _, holder, lists.describes, told.symbols,
        told.group.trans (congrArg some lists.name)⟩
  · intro key
    rw [listed]
    constructor
    · rintro ⟨listing, member, inside⟩
      obtain ⟨group, member, lists⟩ := transcribes.only listing member
      exact ⟨group, member, _, _, lists.describes, inside⟩
    · rintro ⟨group, member, symbols, codes, describes, inside⟩
      obtain ⟨listing, member, lists⟩ := transcribes.all group member
      rw [(describes.unique lists.describes).2] at inside
      exact ⟨listing, member, inside⟩
  · exact nodup_codes _
  · intro key member
    obtain ⟨listing, member, inside⟩ := (listed key).1 member
    -- Looking a code up puts it in lower case, where it is already.
    have holds : listing.Holds key := by
      obtain ⟨code, _, rfl⟩ := List.mem_map.1 inside
      rwa [Listing.Holds, lowercase_lowercase]
    have told := told key
    cases last : lastHolder? listings key with
    | none => exact absurd holds (lastHolder?_eq_none_iff.1 last listing member)
    | some holder =>
      rw [last] at told
      exact ⟨_, _, told.symbols, told.group⟩

/-- A table that is read from a text means the document that the text spells. -/
theorem means_of_ofToml {text : String} (read : ofToml text = .ok table) :
    ∃ document, parse? text = some document ∧ (keys document).Nodup ∧ table.Means document := by
  unfold ofToml at read
  split at read
  · next document spelled =>
    have distinct := nodup_parse? spelled
    exact ⟨document, spelled, distinct, means_of_ofDocument distinct read⟩
  · cases read

/-- The code "x" is in both groups, of which the one that comes first in the text is the last. -/
theorem means_of_ofToml_overriding :
    ∃ document, parse? "b.codes=['X']\n[a]\ndecimal=','\ncodes=['x','y']" = some document ∧
      (keys document).Nodup ∧
      ((empty.insertAll ⟨"a", { decimal := ',' }⟩ ["x", "y"]).insertAll ⟨"b", {}⟩ ["X"]).Means
        document :=
  means_of_ofToml (by cbv)

end Table

end Locale
end DigitMask
