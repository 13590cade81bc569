import DigitMask.Proofs.Binary64.Whole
import DigitMask.Proofs.Decimal.Value
import DigitMask.Proofs.Numeral.Grammar

/-! The numbers that numerals denote. A text stands for a number just if it spells a numeral, blanks
at its ends aside; no numeral denotes what is not a number. -/
namespace DigitMask

/-- The number nearest to a magnitude, with a sign; an infinity from `2^1024` on. -/
def Binary64.IsRounded (x : Binary64) (negative : Bool) (q : ℚ) : Prop :=
  binary q < 2 ^ 1024 ∧ (∃ m : Magnitude, x = .finite negative m ∧ m.value = binary q) ∨
    2 ^ 1024 ≤ binary q ∧ x = .infinity negative

theorem Decimal.isRounded_toBinary64 (d : Decimal) (negative : Bool) :
    (d.toBinary64 negative).IsRounded negative d.value := by
  rcases lt_or_ge (binary d.value) (2 ^ 1024) with small | large
  · exact .inl ⟨small, toBinary64_spec small negative⟩
  · refine .inr ⟨large, ?_⟩
    rw [toBinary64, (nearest_eq_none_iff d).2 large]
    rfl

namespace Numeral

variable {text : List Char} {n : Numeral}

/-- Decimals are rounded once, the digits of other bases are taken in one by one. -/
def Denotes : Numeral → Binary64 → Prop
  | blank, x => x = .zero
  | whole radix digits, x =>
    x = digits.foldl (fun sum digit => sum * .ofNat radix.base + .ofNat digit) .zero
  | infinity negative, x => x = .infinity negative
  | decimal d, x => x.IsRounded d.negative d.decimal.value

theorem denotes_value (n : Numeral) : n.Denotes n.value := by
  cases n with
  | decimal d => exact d.decimal.isRounded_toBinary64 d.negative
  | _ => rfl

theorem accumulate_ne_nan {radix : Radix} {digits : List Nat}
    (written : List.Forall₂ radix.Writes text digits) : accumulate radix.base digits ≠ .nan := by
  obtain ⟨baseFinite, base⟩ := Binary64.ofNat_spec (n := radix.base)
    (radix.base_le.trans (by norm_num))
  have step (sum : Binary64) (number : sum ≠ .nan) :
      digits.foldl (fun sum digit => sum * .ofNat radix.base + .ofNat digit) sum ≠ .nan := by
    induction written generalizing sum with
    | nil => exact number
    | @cons c digit text digits writes _ ih =>
      have small : digit ≤ 2 ^ 53 :=
        (writes.1.le.trans radix.base_le).trans (by norm_num)
      refine ih _ ?_
      rw [ne_eq, Binary64.add_eq_nan_iff (Binary64.ofNat_spec small).1,
        Binary64.mul_eq_nan_iff baseFinite (by rw [base]; cases radix <;> norm_num [Radix.base])]
      exact number
  exact step .zero (fun same => by cases same)

theorem Spells.value_ne_nan (spells : Spells text n) : n.value ≠ .nan := by
  cases spells with
  | whole _ _ written => exact accumulate_ne_nan written
  | @decimal _ d =>
    rw [value, Decimal.toBinary64_eq]
    exact Binary64.ofQuanta_ne_nan _ _ _
  | _ => exact fun same => by cases same

theorem ofChars_of_spells (spells : Spells (trim text) n) : Binary64.ofChars text = n.value := by
  rw [Binary64.ofChars, read?_eq_some_iff.2 spells]
  rfl

theorem ofChars_ne_nan_iff : Binary64.ofChars text ≠ .nan ↔ ∃ n, Spells (trim text) n := by
  constructor
  · intro number
    cases read : read? (trim text) with
    | none => exact absurd (by rw [Binary64.ofChars, read]; rfl) number
    | some n => exact ⟨n, read?_eq_some_iff.1 read⟩
  · rintro ⟨n, spells⟩
    rw [ofChars_of_spells spells]
    exact spells.value_ne_nan

/-- A text is read as a number just if it spells a numeral, which is then the only one. -/
theorem denotes_ofText (text : String) : ∃ inner, Trims text.toList inner ∧
    (Binary64.ofText text ≠ .nan ↔ ∃ n, Spells inner n) ∧
    ∀ n, Spells inner n → n.Denotes (Binary64.ofText text) ∧ ∀ m, Spells inner m → m = n := by
  refine ⟨trim text.toList, trims_iff.2 rfl, ofChars_ne_nan_iff, fun n spells => ⟨?_, ?_⟩⟩
  · rw [Binary64.ofText, ofChars_of_spells spells]
    exact n.denotes_value
  · exact fun m other => other.unique spells

end Numeral
end DigitMask
