import DigitMask.Proofs.Locale.Document

/-! Why a document of locale groups is refused: for the first check that its first faulty group
fails, in the order of the names of the groups. Without a faulty group it is accepted. -/
namespace DigitMask.Locale

open Toml

theorem exceptBind_eq_error_iff {ε α β : Type} {x : Except ε α} {f : α → Except ε β} {e : ε} :
    x >>= f = .error e ↔ x = .error e ∨ ∃ a, x = .ok a ∧ f a = .error e := by
  cases x with
  | error =>
    constructor
    · rintro ⟨⟩
      exact .inl rfl
    · rintro (⟨⟨⟩⟩ | ⟨_, ⟨⟩, -⟩)
      rfl
  | ok a =>
    constructor
    · exact fun failed => .inr ⟨a, rfl, failed⟩
    · rintro (⟨⟨⟩⟩ | ⟨_, ⟨⟩, failed⟩)
      exact failed

theorem exceptPure_ne_error {ε α : Type} {a : α} {e : ε} : ¬ (pure a : Except ε α) = .error e :=
  fun same => by cases same

/-- A table whose symbols are single characters, as far as it gives them, and whose codes are an
array of texts. -/
inductive WellFormed : Value → Prop where
  | table {origin : Origin} {group : Entries} {ofHeaders : Bool} {items : List Value}
      (symbols : ∀ (key : SymbolKey) value, group.lookup key.name = some value →
        ∃ c, value = .text (String.singleton c))
      (listed : group.lookup "codes" = some (.array ofHeaders items))
      (codes : ∀ item ∈ items, ∃ code, item = .text code) : WellFormed (.table origin group)

/-- A value fails a check of the groups. -/
inductive Violates : Value → GroupFault → Prop where
  | notTable {value : Value} (other : ∀ origin group, value ≠ .table origin group) :
      Violates value .notTable
  | symbolNotString {origin : Origin} {group : Entries} {key : SymbolKey} {value : Value}
      (found : group.lookup key.name = some value) (other : ∀ text, value ≠ .text text) :
      Violates (.table origin group) (.symbolNotString key)
  | symbolNotSingle {origin : Origin} {group : Entries} {key : SymbolKey} {text : String}
      (found : group.lookup key.name = some (.text text)) (other : ∀ c, text.toList ≠ [c]) :
      Violates (.table origin group) (.symbolNotSingle key)
  | codesMissing {origin : Origin} {group : Entries}
      (other : ∀ ofHeaders items, group.lookup "codes" ≠ some (.array ofHeaders items)) :
      Violates (.table origin group) .codesMissing
  | codeNotString {origin : Origin} {group : Entries} {ofHeaders : Bool} {items : List Value}
      {item : Value} (listed : group.lookup "codes" = some (.array ofHeaders items))
      (member : item ∈ items) (other : ∀ text, item ≠ .text text) :
      Violates (.table origin group) .codeNotString

def SymbolKey.place : SymbolKey → ℕ
  | decimal => 1
  | group => 2
  | negative => 3

/-- The place of the check that a fault fails, in the order of the checks. -/
def GroupFault.place : GroupFault → ℕ
  | notTable => 0
  | symbolNotString key => key.place
  | symbolNotSingle key => key.place
  | codesMissing => 4
  | codeNotString => 5

/-- The first check that a value fails. -/
structure FirstFault (value : Value) (fault : GroupFault) : Prop where
  violated : Violates value fault
  first : ∀ other, Violates value other → fault.place ≤ other.place

section Group

variable {origin : Origin} {group : Entries} {value : Value} {key : SymbolKey} {plain : Char}
  {fault : GroupFault}

theorem SymbolKey.place_injective {key key' : SymbolKey} (same : key.place = key'.place) :
    key = key' := by
  cases key <;> cases key' <;> first | rfl | cases same

theorem SymbolKey.place_lt (key : SymbolKey) : key.place < 4 := by
  cases key <;> decide

theorem Violates.place_pos (violates : Violates (.table origin group) fault) :
    1 ≤ fault.place := by
  cases violates with
  | notTable other => exact absurd rfl (other _ _)
  | @symbolNotString _ _ key => cases key <;> decide
  | @symbolNotSingle _ _ key => cases key <;> decide
  | codesMissing => decide
  | codeNotString => decide

theorem symbol_eq_error_iff (origin : Origin) : symbol group key plain = .error fault ↔
    Violates (.table origin group) fault ∧ fault.place = key.place := by
  constructor
  · intro failed
    unfold symbol at failed
    split at failed
    · cases failed
    · next found =>
      split at failed
      · cases failed
      · next other =>
        cases failed
        exact ⟨.symbolNotSingle found other, rfl⟩
    · next other found =>
      cases failed
      exact ⟨.symbolNotString found fun text same => other text same, rfl⟩
  · have below := key.place_lt
    rintro ⟨violates, same⟩
    cases violates with
    | notTable other => exact absurd rfl (other _ _)
    | @symbolNotString _ _ key' value found other =>
      rw [SymbolKey.place_injective same] at found ⊢
      unfold symbol
      rw [found]
      cases value with
      | text text => exact absurd rfl (other text)
      | _ => rfl
    | @symbolNotSingle _ _ key' text found other =>
      rw [SymbolKey.place_injective same] at found ⊢
      unfold symbol
      rw [found]
      dsimp only
      split
      · next single => exact absurd single (other _)
      · rfl
    | codesMissing => exact absurd same below.ne'
    | codeNotString => exact absurd same (below.trans (by decide)).ne'

theorem code_eq_error_iff : code value = .error fault ↔
    fault = .codeNotString ∧ ∀ text, value ≠ .text text := by
  unfold code
  split
  · exact iff_of_false (fun failed => by cases failed) fun other => other.2 _ rfl
  · next other =>
    rw [Except.error.injEq, eq_comm]
    exact (and_iff_left other).symm

theorem mapM_code_eq_error_iff {items : List Value} : items.mapM code = .error fault ↔
    fault = .codeNotString ∧ ∃ item ∈ items, ∀ text, item ≠ .text text := by
  induction items with
  | nil => exact iff_of_false (fun failed => by cases failed) (by simp)
  | cons item items ih =>
    rw [List.mapM_cons, exceptBind_eq_error_iff]
    simp only [exceptBind_eq_error_iff, code_eq_error_iff, ih, code_eq_ok_iff, List.mem_cons,
      exists_eq_or_imp]
    constructor
    · rintro (⟨rfl, other⟩ | ⟨_, -, ⟨rfl, later⟩ | ⟨_, -, ⟨⟩⟩⟩)
      · exact ⟨rfl, .inl other⟩
      · exact ⟨rfl, .inr later⟩
    · rintro ⟨rfl, other⟩
      by_cases text : ∃ text, item = .text text
      · obtain ⟨text, rfl⟩ := text
        exact .inr ⟨text, rfl, .inl ⟨rfl, other.resolve_left fun other => other text rfl⟩⟩
      · exact .inl ⟨rfl, not_exists.1 text⟩

theorem codes_eq_error_iff (origin : Origin) : codes group = .error fault ↔
    Violates (.table origin group) fault ∧ 4 ≤ fault.place := by
  constructor
  · intro failed
    unfold codes at failed
    split at failed
    · next found =>
      obtain ⟨rfl, item, member, other⟩ := mapM_code_eq_error_iff.1 failed
      exact ⟨.codeNotString found member other, by decide⟩
    · next other =>
      cases failed
      exact ⟨.codesMissing fun ofHeaders items found => other ofHeaders items found, le_rfl⟩
  · rintro ⟨violates, later⟩
    cases violates with
    | notTable other => exact absurd rfl (other _ _)
    | @symbolNotString _ _ key => exact absurd later key.place_lt.not_ge
    | @symbolNotSingle _ _ key => exact absurd later key.place_lt.not_ge
    | codesMissing other =>
      unfold codes
      split
      · next found => exact absurd found (other _ _)
      · rfl
    | codeNotString listed member other =>
      unfold codes
      rw [listed]
      exact mapM_code_eq_error_iff.2 ⟨rfl, _, member, other⟩

theorem exists_symbol_eq_ok_iff (origin : Origin) : (∃ c, symbol group key plain = .ok c) ↔
    ∀ fault, Violates (.table origin group) fault → fault.place ≠ key.place := by
  cases read : symbol group key plain with
  | ok c =>
    refine iff_of_true ⟨c, rfl⟩ fun fault violates same => ?_
    rw [(symbol_eq_error_iff origin).2 ⟨violates, same⟩] at read
    cases read
  | error fault =>
    obtain ⟨violates, same⟩ := (symbol_eq_error_iff origin).1 read
    exact iff_of_false (fun ⟨_, ok⟩ => by cases ok) fun none => none fault violates same

theorem readGroup_table_eq_error_iff : readGroup (.table origin group) = .error fault ↔
    symbol group .decimal '.' = .error fault ∨
      (∃ c, symbol group .decimal '.' = .ok c) ∧ (symbol group .group ',' = .error fault ∨
        (∃ c, symbol group .group ',' = .ok c) ∧ (symbol group .negative '-' = .error fault ∨
          (∃ c, symbol group .negative '-' = .ok c) ∧ codes group = .error fault)) := by
  simp only [readGroup, exceptBind_eq_error_iff, exceptPure_ne_error, and_false, exists_false,
    or_false, exists_and_right]

/-- No two checks of the codes fail. -/
theorem Violates.codes_unique {other : GroupFault} (violates : Violates (.table origin group) fault)
    (violates' : Violates (.table origin group) other) (later : 4 ≤ fault.place)
    (later' : 4 ≤ other.place) : fault = other := by
  have first := (codes_eq_error_iff origin).2 ⟨violates, later⟩
  have second := (codes_eq_error_iff origin).2 ⟨violates', later'⟩
  exact Except.error.inj (first.symm.trans second)

theorem readGroup_eq_error_iff : readGroup value = .error fault ↔ FirstFault value fault := by
  cases value with
  | table origin group =>
    rw [readGroup_table_eq_error_iff]
    simp only [symbol_eq_error_iff origin, exists_symbol_eq_ok_iff origin,
      codes_eq_error_iff origin, SymbolKey.place]
    constructor
    · rintro (⟨violated, at1⟩ | ⟨not1, ⟨violated, at2⟩ | ⟨not2, ⟨violated, at3⟩ |
        ⟨not3, violated, at4⟩⟩⟩)
      all_goals
        refine ⟨violated, fun other violates => ?_⟩
        have positive := violates.place_pos
      · omega
      · have past1 := not1 other violates
        omega
      · have past1 := not1 other violates
        have past2 := not2 other violates
        omega
      · have past1 := not1 other violates
        have past2 := not2 other violates
        have past3 := not3 other violates
        exact (congrArg GroupFault.place (violated.codes_unique violates at4 (by omega))).le
    · rintro ⟨violated, first⟩
      have positive := violated.place_pos
      have passed (n : ℕ) (before : n < fault.place) (other : GroupFault)
          (violates : Violates (.table origin group) other) : other.place ≠ n := by
        have least := first other violates
        omega
      by_cases at1 : fault.place = 1
      · exact .inl ⟨violated, at1⟩
      by_cases at2 : fault.place = 2
      · exact .inr ⟨passed 1 (by omega), .inl ⟨violated, at2⟩⟩
      by_cases at3 : fault.place = 3
      · exact .inr ⟨passed 1 (by omega), .inr ⟨passed 2 (by omega), .inl ⟨violated, at3⟩⟩⟩
      · exact .inr ⟨passed 1 (by omega), .inr ⟨passed 2 (by omega), .inr ⟨passed 3 (by omega),
          violated, by omega⟩⟩⟩
  | _ =>
    constructor
    · rintro ⟨⟩
      exact ⟨.notTable (by simp), fun other _ => Nat.zero_le _⟩
    · rintro ⟨⟨⟩, -⟩
      rfl

theorem exists_gives_iff : (∃ c, Gives group key plain c) ↔
    ∀ value, group.lookup key.name = some value → ∃ c, value = .text (String.singleton c) := by
  constructor
  · rintro ⟨c, missing | ⟨given, single⟩⟩ value found
    · rw [missing] at found
      cases found
    · rw [given] at found
      cases found
      exact ⟨c, congrArg Value.text (String.toList_injective (by simpa using single))⟩
  · intro single
    cases found : group.lookup key.name with
    | none => exact ⟨plain, .plain found⟩
    | some value =>
      obtain ⟨c, rfl⟩ := single value found
      exact ⟨c, .given found (by simp)⟩

theorem wellFormed_iff : WellFormed value ↔ ∃ symbols codes, Describes value symbols codes := by
  constructor
  · rintro @⟨_, _, _, items, symbols, listed, codes⟩
    obtain ⟨decimal, givesDecimal⟩ := exists_gives_iff.2 (symbols .decimal)
    obtain ⟨separator, givesGroup⟩ := exists_gives_iff.2 (symbols .group)
    obtain ⟨negative, givesNegative⟩ := exists_gives_iff.2 (symbols .negative)
    have texts : items ∈ Set.range (List.map Value.text) := by
      rw [Set.range_list_map]
      exact fun item member => (codes item member).imp fun _ => Eq.symm
    obtain ⟨texts, rfl⟩ := texts
    exact ⟨⟨decimal, separator, negative⟩, texts,
      .table givesDecimal givesGroup givesNegative listed⟩
  · rintro ⟨symbols, codes, decimal, separator, negative, listed⟩
    refine .table (fun key => ?_) listed (by simp)
    cases key with
    | decimal => exact exists_gives_iff.1 ⟨_, decimal⟩
    | group => exact exists_gives_iff.1 ⟨_, separator⟩
    | negative => exact exists_gives_iff.1 ⟨_, negative⟩

theorem WellFormed.not_firstFault (wellFormed : WellFormed value) : ¬ FirstFault value fault := by
  intro first
  obtain ⟨symbols, codes, describes⟩ := wellFormed_iff.1 wellFormed
  have read := readGroup_eq_ok_iff.2 describes
  rw [readGroup_eq_error_iff.2 first] at read
  cases read

end Group

namespace Table

theorem insertGroup_eq_error_iff {table : Table} {group : String × Value} {error : Error} :
    insertGroup table group = .error error ↔
      ∃ fault, FirstFault group.2 fault ∧ error = .group group.1 fault := by
  constructor
  · intro failed
    unfold insertGroup at failed
    split at failed
    · cases failed
    · next fault read =>
      cases failed
      exact ⟨fault, readGroup_eq_error_iff.1 read, rfl⟩
  · rintro ⟨fault, first, rfl⟩
    rw [insertGroup, readGroup_eq_error_iff.2 first]

theorem exists_insertGroup_iff {table : Table} {group : String × Value} :
    (∃ next, insertGroup table group = .ok next) ↔ WellFormed group.2 := by
  rw [wellFormed_iff]
  constructor
  · rintro ⟨next, put⟩
    obtain ⟨listing, lists, -⟩ := insertGroup_eq_ok_iff.1 put
    exact ⟨_, _, lists.describes⟩
  · rintro ⟨symbols, codes, describes⟩
    exact ⟨_, insertGroup_eq_ok_iff.2 ⟨⟨⟨group.1, symbols⟩, codes⟩, ⟨rfl, describes⟩, rfl⟩⟩

/-- The groups before the first faulty one are put in before it is found. -/
theorem foldlM_insertGroup_eq_error_iff {groups : Entries} {table : Table} {error : Error} :
    groups.foldlM insertGroup table = .error error ↔
      ∃ before group after fault, groups = before ++ group :: after ∧
        (∀ other ∈ before, WellFormed other.2) ∧ FirstFault group.2 fault ∧
        error = .group group.1 fault := by
  induction groups generalizing table with
  | nil => exact iff_of_false (fun failed => by cases failed) (by simp)
  | cons group groups ih =>
    rw [List.foldlM_cons, exceptBind_eq_error_iff, insertGroup_eq_error_iff]
    simp only [ih, exists_and_right, exists_insertGroup_iff]
    constructor
    · rintro (⟨fault, first, rfl⟩ | ⟨wellFormed, before, other, after, fault, rfl, passed, first⟩)
      · exact ⟨[], group, groups, fault, rfl, by simp, first, rfl⟩
      · exact ⟨group :: before, other, after, fault, rfl,
          List.forall_mem_cons.2 ⟨wellFormed, passed⟩, first⟩
    · rintro ⟨before, other, after, fault, split, passed, first, rfl⟩
      cases before with
      | nil =>
        cases split
        exact .inl ⟨fault, first, rfl⟩
      | cons head before =>
        cases split
        obtain ⟨wellFormed, passed⟩ := List.forall_mem_cons.1 passed
        exact .inr ⟨wellFormed, before, other, after, fault, rfl, passed, first, rfl⟩

theorem exists_foldlM_insertGroup_iff {groups : Entries} {table : Table} :
    (∃ result, groups.foldlM insertGroup table = .ok result) ↔
      ∀ group ∈ groups, WellFormed group.2 := by
  constructor
  · rintro ⟨result, built⟩ group member
    obtain ⟨listings, all, -⟩ := foldlM_insertGroup_eq_ok_iff.1 built
    obtain ⟨listing, -, lists⟩ := exists_mem_right all member
    exact wellFormed_iff.2 ⟨_, _, lists.describes⟩
  · intro wellFormed
    cases built : groups.foldlM insertGroup table with
    | ok result => exact ⟨result, rfl⟩
    | error error =>
      obtain ⟨before, group, after, fault, rfl, -, first, -⟩ :=
        foldlM_insertGroup_eq_error_iff.1 built
      exact absurd first (wellFormed group (by simp)).not_firstFault

end Table

/-- The first faulty group in the order of the names, with the first check that it fails. -/
structure FirstFaulty (document : Entries) (name : String) (fault : GroupFault) : Prop where
  faulty : ∃ value, (name, value) ∈ document ∧ FirstFault value fault
  first : ∀ other ∈ document, other.1 < name → WellFormed other.2

namespace Table

variable {document : Entries}

theorem exists_ofDocument_iff :
    (∃ table, ofDocument document = .ok table) ↔ ∀ group ∈ document, WellFormed group.2 := by
  rw [ofDocument, exists_foldlM_insertGroup_iff]
  simp only [mem_inOrder]

theorem ofDocument_eq_error_iff (distinct : (keys document).Nodup) {error : Error} :
    ofDocument document = .error error ↔
      ∃ name fault, FirstFaulty document name fault ∧ error = .group name fault := by
  have order := pairwise_inOrder distinct
  rw [ofDocument, foldlM_insertGroup_eq_error_iff]
  constructor
  · rintro ⟨before, ⟨name, value⟩, after, fault, split, passed, first, rfl⟩
    rw [split] at order
    refine ⟨name, fault, ⟨⟨value, mem_inOrder.1 (by rw [split]; simp), first⟩, ?_⟩, rfl⟩
    intro other member less
    rw [← mem_inOrder, split] at member
    rcases List.mem_append.1 member with earlier | later
    · exact passed other earlier
    · rcases List.mem_cons.1 later with rfl | later
      · exact absurd less (String.lt_irrefl _)
      · have greater := (List.pairwise_cons.1 (List.pairwise_append.1 order).2.1).1 other later
        exact absurd less (String.lt_asymm greater)
  · rintro ⟨name, fault, ⟨⟨value, member, first⟩, passed⟩, rfl⟩
    obtain ⟨before, after, split⟩ := List.append_of_mem (mem_inOrder.2 member)
    refine ⟨before, _, after, fault, split, fun other earlier => ?_, first, rfl⟩
    rw [split] at order
    refine passed other (mem_inOrder.1 ?_)
      ((List.pairwise_append.1 order).2.2 other earlier _ List.mem_cons_self)
    rw [split]
    exact List.mem_append_left _ earlier

end Table

end DigitMask.Locale
