import DigitMask.Text.Lowercase

/-! Lower case is final: the characters of a text in lower case have no other lower case, so the
text stays as it is when it is put in lower case again. -/
namespace DigitMask

namespace LowerRun

def lower (run : LowerRun) (n : Nat) : Nat := (n + run.shift).toNat

/-- The lower-case characters of the run are scalar values. -/
def isSound (run : LowerRun) : Bool :=
  (run.step.beq 1 || run.step.beq 2) && decide (0 ≤ run.first + run.shift) &&
    (decide (run.last + run.shift < 0xD800) ||
      decide (0xDFFF < run.first + run.shift ∧ run.last + run.shift < 0x110000))

/-- No character of the other run is a lower-case one of this run: it is above all of them, below
all of them, or always between two. -/
def isApart (run other : LowerRun) : Bool :=
  (run.lower run.last).blt other.first || other.last.blt (run.lower run.first) ||
    (run.step.beq 2 || run.first.beq run.last) && other.step.beq 2 &&
      ((run.lower run.first + other.first) % 2).beq 1

variable {run other : LowerRun} {c d : Char}

theorem covers_iff : run.covers c = true ↔
    run.first ≤ c.toNat ∧ c.toNat ≤ run.last ∧ (c.toNat - run.first) % run.step = 0 := by
  simp [covers, and_assoc]

theorem isSound_iff : run.isSound = true ↔ (run.step = 1 ∨ run.step = 2) ∧
    0 ≤ run.first + run.shift ∧ (run.last + run.shift < 0xD800 ∨
      0xDFFF < run.first + run.shift ∧ run.last + run.shift < 0x110000) := by
  simp [isSound, and_assoc]

theorem isApart_iff : run.isApart other = true ↔
    run.lower run.last < other.first ∨ other.last < run.lower run.first ∨
      (run.step = 2 ∨ run.first = run.last) ∧ other.step = 2 ∧
        (run.lower run.first + other.first) % 2 = 1 := by
  simp [isApart, or_assoc, and_assoc, Nat.blt_eq]

theorem toNat_lower (sound : run.isSound = true) (covered : run.covers c = true) :
    (Char.ofNat (run.lower c.toNat)).toNat = run.lower c.toNat := by
  obtain ⟨-, low, scalar⟩ := isSound_iff.1 sound
  obtain ⟨first, last, -⟩ := covers_iff.1 covered
  have valid : (run.lower c.toNat).isValidChar := by
    unfold lower Nat.isValidChar
    omega
  rw [Char.ofNat, dif_pos valid]
  rfl

theorem covers_lower (sound : run.isSound = true) (apart : run.isApart other = true)
    (covered : run.covers c = true) (lower : d.toNat = run.lower c.toNat) :
    other.covers d = false := by
  obtain ⟨step, low, -⟩ := isSound_iff.1 sound
  obtain ⟨first, last, on⟩ := covers_iff.1 covered
  rw [← Bool.not_eq_true, covers_iff]
  rintro ⟨otherFirst, otherLast, otherOn⟩
  have apart := isApart_iff.1 apart
  rw [lower] at otherFirst otherLast otherOn
  unfold LowerRun.lower at *
  rcases apart with above | below | ⟨spaced, otherSpaced, odd⟩
  · omega
  · omega
  · rw [otherSpaced] at otherOn
    rcases spaced with two | one
    · rw [two] at on
      omega
    · omega

end LowerRun

/-- The runs of the characters with another lower case, which is two characters for the first. -/
def capitalRuns : List LowerRun := ⟨0x130, 0x130, 1, 0⟩ :: lowerRuns

theorem final_lowerRuns :
    lowerRuns.all (fun run => run.isSound && capitalRuns.all run.isApart) = true := by
  decide +kernel

def IsLower (c : Char) : Prop := ∀ run ∈ capitalRuns, run.covers c = false

namespace IsLower

variable {c : Char}

theorem lowerChar (lower : IsLower c) : lowerChar c = c := by
  have none : lowerRuns.find? (·.covers c) = none :=
    List.find?_eq_none.2 fun run member => by
      rw [lower run (List.mem_cons_of_mem _ member)]
      simp
  rw [DigitMask.lowerChar, none]

theorem ne (lower : IsLower c) {capital : Char}
    (covered : capitalRuns.any (·.covers capital) = true) : c ≠ capital := by
  rintro rfl
  obtain ⟨run, member, inside⟩ := List.any_eq_true.1 covered
  rw [lower run member] at inside
  cases inside

end IsLower

theorem isLower_lowerChar {c : Char} (other : c ≠ 'İ') : IsLower (lowerChar c) := by
  intro run member
  rw [lowerChar]
  cases found : lowerRuns.find? (·.covers c) with
  | some own =>
    have final := List.all_eq_true.1 final_lowerRuns own (List.mem_of_find?_eq_some found)
    obtain ⟨sound, apart⟩ := Bool.and_eq_true_iff.1 final
    have covered := List.find?_some found
    exact LowerRun.covers_lower sound (List.all_eq_true.1 apart run member) covered
      (LowerRun.toNat_lower sound covered)
  | none =>
    rcases List.mem_cons.1 member with rfl | member
    · rw [← Bool.not_eq_true, LowerRun.covers_iff]
      rintro ⟨first, last, -⟩
      exact other (Char.toNat_inj.1 (Nat.le_antisymm last first))
    · simpa using List.find?_eq_none.1 found run member

theorem isLower_lowerSigma (before rest : List Char) : IsLower (lowerSigma before rest) := by
  unfold lowerSigma IsLower
  split <;> decide +kernel

theorem isLower_of_mem_lowerAfter {before text : List Char} {c : Char}
    (member : c ∈ lowerAfter before text) : IsLower c := by
  fun_induction lowerAfter before text with
  | case1 => cases member
  | case2 before rest ih =>
    rcases List.mem_cons.1 member with rfl | member
    · exact isLower_lowerSigma before rest
    · exact ih member
  | case3 before rest ih =>
    -- An i and the dot that was above the capital.
    rcases List.mem_cons.1 member with rfl | member
    · unfold IsLower; decide +kernel
    rcases List.mem_cons.1 member with rfl | member
    · unfold IsLower; decide +kernel
    · exact ih member
  | case4 before d rest sigma dotted ih =>
    rcases List.mem_cons.1 member with rfl | member
    · exact isLower_lowerChar fun same => dotted same
    · exact ih member

theorem lowerAfter_of_isLower {before text : List Char} (lower : ∀ c ∈ text, IsLower c) :
    lowerAfter before text = text := by
  induction text generalizing before with
  | nil => rfl
  | cons c rest ih =>
    have head := lower c List.mem_cons_self
    have sigma : c ≠ 'Σ' := head.ne (by decide +kernel)
    have dotted : c ≠ 'İ' := head.ne (by decide +kernel)
    rw [lowerAfter.eq_4 _ _ _ sigma dotted, head.lowerChar,
      ih fun d member => lower d (List.mem_cons_of_mem _ member)]

theorem lowercase_lowercase (text : String) : lowercase (lowercase text) = lowercase text := by
  rw [lowercase, lowercase, String.toList_ofList]
  exact congrArg String.ofList (lowerAfter_of_isLower fun c => isLower_of_mem_lowerAfter)

end DigitMask
