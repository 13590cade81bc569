import DigitMask.Proofs.Toml.Keys
import Mathlib.Data.List.Perm.Basic

/-! Documents that have the same entries in another order. Every key then leads to the same value,
the order of the entries in that value aside, since no table has two entries of one key. -/
namespace DigitMask.Toml

/-- The same value, but for the order of the entries in its tables and for how these came about. -/
inductive Value.Reordered : Value → Value → Prop where
  | same (value : Value) : Reordered value value
  | array {ofHeaders : Bool} {items items' : List Value}
      (all : List.Forall₂ Reordered items items') :
      Reordered (.array ofHeaders items) (.array ofHeaders items')
  | table {origin origin' : Origin} {entries moved entries' : Entries} (perm : entries.Perm moved)
      (sameKeys : keys moved = keys entries')
      (values : List.Forall₂ Reordered (moved.map Prod.snd) (entries'.map Prod.snd)) :
      Reordered (.table origin entries) (.table origin' entries')

def SameEntry (entry entry' : String × Value) : Prop :=
  entry.1 = entry'.1 ∧ entry.2.Reordered entry'.2

/-- The same entries in another order, also in the tables among them. -/
def Reordered (entries entries' : Entries) : Prop :=
  Relation.Comp List.Perm (List.Forall₂ SameEntry) entries entries'

section

variable {entries moved entries' : Entries} {key : String} {value value' : Value}

theorem lookup_of_mem (distinct : (keys entries).Nodup) (member : (key, value) ∈ entries) :
    entries.lookup key = some value := by
  obtain ⟨before, after, rfl⟩ := List.append_of_mem member
  refine List.lookup_eq_some_iff.2 ⟨before, after, rfl, fun entry inside => bne_iff_ne.2 ?_⟩
  rw [keys, List.map_append, List.nodup_append] at distinct
  exact (distinct.2.2 _ (List.mem_map_of_mem inside) key List.mem_cons_self).symm

theorem lookup_perm (distinct : (keys entries).Nodup) (perm : entries.Perm moved) :
    entries.lookup key = moved.lookup key := by
  have order := perm.map Prod.fst
  cases found : moved.lookup key with
  | some value => exact lookup_of_mem distinct (perm.mem_iff.2 (mem_of_lookup found))
  | none =>
    rw [← not_mem_keys_iff] at found ⊢
    exact fun member => found (order.mem_iff.1 member)

theorem forall₂_sameEntry (sameKeys : keys moved = keys entries')
    (values : List.Forall₂ Value.Reordered (moved.map Prod.snd) (entries'.map Prod.snd)) :
    List.Forall₂ SameEntry moved entries' := by
  induction moved generalizing entries' with
  | nil =>
    rw [List.map_eq_nil_iff.1 sameKeys.symm]
    exact .nil
  | cons entry moved ih =>
    cases entries' with
    | nil => cases sameKeys
    | cons entry' entries' =>
      obtain ⟨key, sameKeys⟩ := List.cons.inj sameKeys
      cases values with
      | cons value values => exact .cons ⟨key, value⟩ (ih sameKeys values)

theorem lookup_sameEntry (same : List.Forall₂ SameEntry moved entries') (key : String) :
    Option.Rel Value.Reordered (moved.lookup key) (entries'.lookup key) := by
  induction same with
  | nil => exact .none
  | @cons entry entry' _ _ head _ ih =>
    rw [List.lookup_cons, List.lookup_cons, head.1]
    split
    · exact .some head.2
    · exact ih

theorem Reordered.lookup (reordered : Reordered entries entries') (distinct : (keys entries).Nodup)
    (key : String) : Option.Rel Value.Reordered (entries.lookup key) (entries'.lookup key) := by
  obtain ⟨moved, perm, same⟩ := reordered
  rw [lookup_perm distinct perm]
  exact lookup_sameEntry same key

theorem Value.Reordered.inner {origin : Origin}
    (reordered : Value.Reordered (.table origin entries) value) :
    ∃ origin' entries', value = .table origin' entries' ∧ Toml.Reordered entries entries' := by
  cases reordered with
  | same => exact ⟨_, _, rfl, entries, .refl _, List.forall₂_same.2 fun _ _ => ⟨rfl, .same _⟩⟩
  | table perm sameKeys values => exact ⟨_, _, rfl, _, perm, forall₂_sameEntry sameKeys values⟩

end

end DigitMask.Toml
