import DigitMask.Text.Blank
import Mathlib.Data.List.DropRight

/-! Runs at the ends of a text, told by what they hold and by where they stop. -/
namespace DigitMask

variable {α : Type}

theorem takeWhile_append_eq {p : α → Bool} {front rest : List α}
    (passes : ∀ a ∈ front, p a = true) (stops : ∀ a, rest.head? = some a → p a = false) :
    (front ++ rest).takeWhile p = front ∧ (front ++ rest).dropWhile p = rest := by
  rw [List.takeWhile_append_of_pos passes, List.dropWhile_append_of_pos passes]
  cases rest with
  | nil => simp
  | cons a rest => simp [stops a rfl]

theorem rtakeWhile_append_eq {p : α → Bool} {front back : List α}
    (passes : ∀ a ∈ back, p a = true) (stops : ∀ a, front.getLast? = some a → p a = false) :
    (front ++ back).rtakeWhile p = back ∧ (front ++ back).rdropWhile p = front := by
  have reversed := @takeWhile_append_eq _ p back.reverse front.reverse
    (by simpa using passes) (by simpa [List.head?_reverse] using stops)
  constructor
  · rw [List.rtakeWhile, List.reverse_append, reversed.1, List.reverse_reverse]
  · rw [List.rdropWhile, List.reverse_append, reversed.2, List.reverse_reverse]

theorem not_of_getLast?_rdropWhile {p : α → Bool} {l : List α} {a : α}
    (last : (l.rdropWhile p).getLast? = some a) : p a = false := by
  obtain ⟨more, rfl⟩ := List.mem_getLast?_eq_getLast last
  simpa using List.rdropWhile_last_not p l more

theorem trim_eq (text : List Char) : trim text = (text.dropWhile isBlank).rdropWhile isBlank := rfl

/-- What is left of a text without the blanks at its ends. -/
structure Trims (text inner : List Char) : Prop where
  blanks : ∃ front back, text = front ++ (inner ++ back) ∧
    (∀ c ∈ front, isBlank c = true) ∧ ∀ c ∈ back, isBlank c = true
  first : ∀ c, inner.head? = some c → isBlank c = false
  last : ∀ c, inner.getLast? = some c → isBlank c = false

theorem trims_iff {text inner : List Char} : Trims text inner ↔ inner = trim text := by
  constructor
  · rintro ⟨⟨front, back, rfl, before, after⟩, first, last⟩
    have middle := (rtakeWhile_append_eq after last).2
    by_cases bare : inner = []
    · subst bare
      have all := (List.dropWhile_eq_nil_iff (p := isBlank)).2
        fun c member => (List.mem_append.1 member).elim (before c) (after c)
      rw [List.nil_append, trim_eq, all]
      rfl
    · rw [trim_eq, (takeWhile_append_eq before _).2, middle]
      intro c head
      rw [List.head?_append_of_ne_nil _ bare] at head
      exact first c head
  · rintro rfl
    rw [trim_eq]
    have inside := @List.rdropWhile_append_rtakeWhile _ isBlank (text.dropWhile isBlank)
    refine ⟨⟨text.takeWhile isBlank, (text.dropWhile isBlank).rtakeWhile isBlank, ?_,
      fun c => List.mem_takeWhile_imp, fun c => List.mem_rtakeWhile_imp⟩, fun c head => ?_,
      fun c => not_of_getLast?_rdropWhile⟩
    · rw [inside, List.takeWhile_append_dropWhile]
    · have stops := List.head?_dropWhile_not isBlank text
      rw [← inside, List.head?_append, head] at stops
      exact stops

/-- What stands before the first `a`, or everything without one. -/
def UpToFirst (a : α) (text front : List α) : Prop :=
  a ∉ front ∧ ∃ rest, text = front ++ rest ∧ (rest = [] ∨ rest.head? = some a)

/-- What stands after the last `a`. -/
def AfterLast (a : α) (text back : List α) : Prop :=
  a ∉ back ∧ ∃ front, text = front ++ a :: back

variable [BEq α] [LawfulBEq α]

theorem bne_of_mem {a b : α} {l : List α} (free : a ∉ l) (member : b ∈ l) : (b != a) = true := by
  rw [bne_iff_ne]; rintro rfl; exact free member

theorem upToFirst_iff (a : α) (text front : List α) :
    UpToFirst a text front ↔ front = text.takeWhile (· != a) := by
  constructor
  · rintro ⟨free, rest, rfl, stops⟩
    refine (takeWhile_append_eq (fun _ => bne_of_mem free) ?_).1.symm
    intro b first
    rcases stops with rfl | stops
    · simp at first
    · simp_all
  · rintro rfl
    refine ⟨fun member => ?_, _, (List.takeWhile_append_dropWhile ..).symm, ?_⟩
    · simpa using List.mem_takeWhile_imp member
    · have stops := List.head?_dropWhile_not (· != a) text
      cases first : (text.dropWhile (· != a)).head? with
      | none => exact .inl (List.head?_eq_none_iff.1 first)
      | some b => rw [first] at stops; exact .inr (by simpa using stops)

theorem afterLast_iff (a : α) (text back : List α) :
    AfterLast a text back ↔ a ∈ text ∧ back = text.rtakeWhile (· != a) := by
  constructor
  · rintro ⟨free, front, rfl⟩
    have ends := @rtakeWhile_append_eq _ (· != a) (front ++ [a]) back
      (fun _ => bne_of_mem free) (by simp)
    rw [List.append_assoc, List.singleton_append] at ends
    exact ⟨by simp, ends.1.symm⟩
  · rintro ⟨member, same⟩
    have parts := @List.rdropWhile_append_rtakeWhile _ (· != a) text
    have free : a ∉ back := fun inside => by
      rw [same] at inside
      simpa using List.mem_rtakeWhile_imp inside
    rw [← same] at parts
    cases last : (text.rdropWhile (· != a)).getLast? with
    | none =>
      rw [List.getLast?_eq_none_iff.1 last, List.nil_append] at parts
      exact absurd (parts ▸ member) free
    | some b =>
      have same : b = a := by simpa using not_of_getLast?_rdropWhile last
      obtain ⟨front, split⟩ := List.getLast?_eq_some_iff.1 last
      exact ⟨free, front, by rw [← parts, split, same, List.append_assoc, List.singleton_append]⟩

end DigitMask
