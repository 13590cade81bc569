import DigitMask.Proofs.Locale.Fault
import DigitMask.Proofs.Toml.Reordered

/-! Documents of locale groups in another order. Groups are put in by the order of their names and
read key by key, so that neither the order of the groups in a text nor that of the entries of a
group has a part in the answer. -/
namespace DigitMask.Locale

open Toml

section Group

variable {group group' : Entries} {value value' : Value} {key : SymbolKey} {plain : Char}

theorem symbol_congr
    (same : Option.Rel Value.Reordered (group.lookup key.name) (group'.lookup key.name)) :
    symbol group key plain = symbol group' key plain := by
  unfold symbol
  generalize group.lookup key.name = found at same ⊢
  generalize group'.lookup key.name = found' at same ⊢
  cases same with
  | none => rfl
  | some value => cases value <;> rfl

theorem code_congr (same : value.Reordered value') : code value = code value' := by
  cases same <;> rfl

theorem mapM_code_congr {items items' : List Value}
    (same : List.Forall₂ Value.Reordered items items') : items.mapM code = items'.mapM code := by
  induction same with
  | nil => rfl
  | cons head _ ih => rw [List.mapM_cons, List.mapM_cons, code_congr head, ih]

theorem codes_congr
    (same : Option.Rel Value.Reordered (group.lookup "codes") (group'.lookup "codes")) :
    codes group = codes group' := by
  unfold codes
  generalize group.lookup "codes" = found at same ⊢
  generalize group'.lookup "codes" = found' at same ⊢
  cases same with
  | none => rfl
  | some value =>
    cases value with
    | array all => exact mapM_code_congr all
    | _ => rfl

theorem readGroup_congr (distinct : value.Distinct) (same : value.Reordered value') :
    readGroup value = readGroup value' := by
  cases value with
  | table origin group =>
    obtain ⟨origin', group', rfl, reordered⟩ := same.inner
    have found := reordered.lookup distinct.inner.keys
    simp only [readGroup, symbol_congr (found _), codes_congr (found _)]
  | _ => cases same <;> rfl

end Group

namespace Table

variable {document document' : Entries}

theorem sameEntry_inOrder (distinct : (keys document).Nodup) (distinct' : (keys document').Nodup)
    (same : Reordered document document') :
    List.Forall₂ SameEntry (inOrder document) (inOrder document') := by
  obtain ⟨moved, perm, same⟩ := same
  obtain ⟨sorted, same, perm'⟩ :=
    List.perm_comp_forall₂ ((List.mergeSort_perm document _).trans perm) same
  have order : sorted.Pairwise fun a b => a.1 < b.1 := by
    refine pairwise_right same (fun a b a' b' head tail less => ?_) (pairwise_inOrder distinct)
    rwa [← head.1, ← tail.1]
  have unique : sorted = inOrder document' :=
    List.Perm.eq_of_pairwise (fun a b _ _ less greater => absurd less (String.lt_asymm greater))
      order (pairwise_inOrder distinct') (perm'.trans (List.mergeSort_perm document' _).symm)
  exact unique ▸ same

theorem foldlM_insertGroup_congr {groups groups' : Entries} (table : Table)
    (distinct : ∀ group ∈ groups, group.2.Distinct) (same : List.Forall₂ SameEntry groups groups') :
    groups.foldlM insertGroup table = groups'.foldlM insertGroup table := by
  induction same generalizing table with
  | nil => rfl
  | @cons group group' groups groups' head _ ih =>
    obtain ⟨first, rest⟩ := List.forall_mem_cons.1 distinct
    have put : insertGroup table group = insertGroup table group' := by
      rw [insertGroup, insertGroup, readGroup_congr first head.2, head.1]
    rw [List.foldlM_cons, List.foldlM_cons, put]
    exact congrArg _ (funext fun next => ih next rest)

/-- The order in a document has no part in what is read of it. -/
theorem ofDocument_congr (distinct : Distinct document) (distinct' : Distinct document')
    (same : Reordered document document') : ofDocument document = ofDocument document' := by
  have groups : ∀ group ∈ inOrder document, group.2.Distinct :=
    fun group member => distinct.values group (mem_inOrder.1 member)
  exact foldlM_insertGroup_congr empty groups (sameEntry_inOrder distinct.keys distinct'.keys same)

theorem ofToml_eq {text : String} (read : parse? text = some document) :
    ofToml text = ofDocument document := by
  rw [ofToml, read]

/-- A document is accepted just if all its groups are well formed; otherwise it is refused for the
first check that its first faulty group fails. Documents that differ in order only are both refused
for the same or give the same table. -/
theorem ofToml_of_parse? {text : String} (read : parse? text = some document) :
    ((∃ table, ofToml text = .ok table) ↔ ∀ group ∈ document, WellFormed group.2) ∧
    (∀ error, ofToml text = .error error ↔ ∃ name fault, FirstFaulty document name fault ∧
      error = .group name fault ∧
      error.message = "Error parsing locale data: " ++ fault.message name) ∧
    ∀ text' document', parse? text' = some document' → Reordered document document' →
      ofToml text = ofToml text' := by
  have distinct := distinct_parse? read
  rw [ofToml_eq read]
  refine ⟨exists_ofDocument_iff, fun error => ?_, fun text' document' read' same => ?_⟩
  · rw [ofDocument_eq_error_iff distinct.keys]
    constructor
    · rintro ⟨name, fault, first, rfl⟩
      exact ⟨name, fault, first, rfl, rfl⟩
    · rintro ⟨name, fault, first, rfl, -⟩
      exact ⟨name, fault, first, rfl⟩
  · rw [ofToml_eq read']
    exact ofDocument_congr distinct (distinct_parse? read') same

/-- Two faulty groups, in either order. The second check of the first one is what counts. -/
theorem ofToml_of_parse?_faulty :
    ofToml "[b]\ncodes=1\n[a]\ngroup=''\nnegative=2" =
        .error (.group "a" (.symbolNotSingle .group)) ∧
      ofToml "[b]\ncodes=1\n[a]\ngroup=''\nnegative=2" =
        ofToml "[a]\nnegative=2\ngroup=''\n[b]\ncodes=1" := by
  have read : parse? "[b]\ncodes=1\n[a]\ngroup=''\nnegative=2" = some
      [("b", .table .header [("codes", .integer 1)]),
        ("a", .table .header [("group", .text ""), ("negative", .integer 2)])] := by cbv
  have read' : parse? "[a]\nnegative=2\ngroup=''\n[b]\ncodes=1" = some
      [("a", .table .header [("negative", .integer 2), ("group", .text "")]),
        ("b", .table .header [("codes", .integer 1)])] := by cbv
  obtain ⟨-, refused, reordered⟩ := ofToml_of_parse? read
  constructor
  · refine (refused _).2 ⟨"a", .symbolNotSingle .group,
      ⟨⟨_, List.mem_cons_of_mem _ List.mem_cons_self, ?_⟩, ?_⟩, rfl, rfl⟩
    · exact readGroup_eq_error_iff.1 rfl
    · exact List.forall_mem_cons.2 ⟨fun less => absurd less (by decide),
        List.forall_mem_cons.2 ⟨fun less => absurd less (by decide), by simp⟩⟩
  · refine reordered _ _ read' ⟨_, .swap _ _ _, .cons ⟨rfl, ?_⟩ (.cons ⟨rfl, .same _⟩ .nil)⟩
    exact .table (.swap _ _ _) rfl (.cons (.same _) (.cons (.same _) .nil))

end Table

end DigitMask.Locale
