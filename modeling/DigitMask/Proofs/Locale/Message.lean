import DigitMask.Proofs.Locale.Fault

/-! What a refusal says. Its text names the code that was looked for, or a group and what was
checked of it, and tells the fault as long as the group is known. -/
namespace DigitMask.Locale

def Names (text part : String) : Prop := ∃ before after, text = before ++ part ++ after

namespace Names

variable {text part : String}

theorem refl (text : String) : Names text text := ⟨"", "", by simp⟩

theorem append_left (names : Names text part) (front : String) : Names (front ++ text) part := by
  obtain ⟨before, after, rfl⟩ := names
  exact ⟨front ++ before, after, by simp only [String.append_assoc]⟩

theorem append_right (names : Names text part) (back : String) : Names (text ++ back) part := by
  obtain ⟨before, after, rfl⟩ := names
  exact ⟨before, after ++ back, by simp only [String.append_assoc]⟩

end Names

namespace GroupFault

/-- What the check that failed is about. -/
def subject : GroupFault → String
  | notTable => "table"
  | symbolNotString key | symbolNotSingle key => key.name
  | codesMissing => "codes"
  | codeNotString => "code"

/-- What stands before the name of the group and what stands after it. -/
def around : GroupFault → String × String
  | notTable => ("", " is not a table")
  | symbolNotString key => (key.name ++ " in ", " is not a string")
  | symbolNotSingle key => (key.name ++ " in ", " must be a single character")
  | codesMissing => ("Missing or invalid codes in ", "")
  | codeNotString => ("Non-string locale code in ", "")

theorem message_eq (name : String) (fault : GroupFault) :
    fault.message name = fault.around.1 ++ name ++ fault.around.2 := by
  cases fault with
  | notTable => exact congrArg (· ++ " is not a table") String.empty_append.symm
  | symbolNotString key => rfl
  | symbolNotSingle key => rfl
  | codesMissing => exact String.append_empty.symm
  | codeNotString => exact String.append_empty.symm

theorem names_message (name : String) (fault : GroupFault) :
    Names (fault.message name) name ∧ Names (fault.message name) fault.subject := by
  rw [message_eq]
  refine ⟨⟨_, _, rfl⟩, ?_⟩
  cases fault with
  | notTable =>
    have table : Names " is not a table" "table" := ⟨" is not a ", "", rfl⟩
    exact table.append_left _
  | symbolNotString key => exact (((Names.refl _).append_right _).append_right _).append_right _
  | symbolNotSingle key => exact (((Names.refl _).append_right _).append_right _).append_right _
  | codesMissing =>
    have codes : Names "Missing or invalid codes in " "codes" :=
      ⟨"Missing or invalid ", " in ", rfl⟩
    exact (codes.append_right _).append_right _
  | codeNotString =>
    have code : Names "Non-string locale code in " "code" := ⟨"Non-string locale ", " in ", rfl⟩
    exact (code.append_right _).append_right _

/-- The length of the text besides the name of the group. -/
def width : GroupFault → ℕ
  | notTable => 15
  | symbolNotString .decimal => 27
  | symbolNotString .group => 25
  | symbolNotString .negative => 28
  | symbolNotSingle .decimal => 38
  | symbolNotSingle .group => 36
  | symbolNotSingle .negative => 39
  | codesMissing => 28
  | codeNotString => 26

theorem length_message (name : String) (fault : GroupFault) :
    (fault.message name).length = name.length + fault.width := by
  have around : fault.around.1.length + fault.around.2.length = fault.width := by
    rcases fault with _ | ⟨_ | _ | _⟩ | ⟨_ | _ | _⟩ | _ | _ <;> rfl
  rw [message_eq, String.length_append, String.length_append]
  omega

/-- The lengths tell all faults apart but two, whose first characters differ. -/
theorem eq_of_width {fault fault' : GroupFault} (same : fault.width = fault'.width) :
    fault = fault' ∨ fault = symbolNotString .negative ∧ fault' = codesMissing ∨
      fault = codesMissing ∧ fault' = symbolNotString .negative := by
  rcases fault with _ | ⟨_ | _ | _⟩ | ⟨_ | _ | _⟩ | _ | _ <;>
    rcases fault' with _ | ⟨_ | _ | _⟩ | ⟨_ | _ | _⟩ | _ | _ <;> cases same <;> simp

theorem message_negative_ne (name : String) :
    message name (symbolNotString .negative) ≠ message name codesMissing := by
  intro same
  have first := congrArg (fun text => text.toList.head?) same
  simp [message_eq, around, SymbolKey.name] at first

theorem message_injective (name : String) : Function.Injective (message name) := by
  intro fault fault' same
  have width := congrArg String.length same
  rw [length_message, length_message, Nat.add_left_cancel_iff] at width
  obtain rfl | ⟨rfl, rfl⟩ | ⟨rfl, rfl⟩ := eq_of_width width
  · rfl
  · exact absurd same (message_negative_ne name)
  · exact absurd same.symm (message_negative_ne name)

theorem message_left_injective (fault : GroupFault) :
    Function.Injective fun name => message name fault := by
  intro name name' same
  simpa [message_eq] using same

/-- The text tells the group by the fault and the fault by the group. -/
theorem name_eq_iff_of_message {name name' : String} {fault fault' : GroupFault}
    (same : fault.message name = fault'.message name') : name = name' ↔ fault = fault' := by
  constructor
  · rintro rfl
    exact message_injective name same
  · rintro rfl
    exact message_left_injective fault same

/-- It does not tell both at once. -/
example : message "Missing or invalid codes in a" notTable =
    message "a is not a table" codesMissing := by rfl

end GroupFault

namespace Error

def parts : Error → String × String
  | notFound code => ("Locale not found: ", code)
  | malformed => ("TOML syntax", "")
  | group name fault => ("Error parsing locale data: ", fault.message name)

theorem message_eq (error : Error) : error.message = error.parts.1 ++ error.parts.2 := by
  cases error with
  | malformed => exact String.append_empty.symm
  | _ => rfl

theorem parts_eq_of_message {error error' : Error} (same : error.message = error'.message) :
    error.parts = error'.parts := by
  rw [message_eq, message_eq] at same
  have first := congrArg (fun text => text.toList.head?) same
  have opening : error.parts.1 = error'.parts.1 := by
    cases error <;> cases error' <;> first | rfl | simp [parts] at first
  rw [opening, String.append_right_inj] at same
  exact Prod.ext opening same

/-- The text of an error tells it. The names of groups are any texts, so that two faults of groups
may read the same, but then neither the group nor the fault is the same. -/
theorem message_eq_iff {error error' : Error} : error.message = error'.message ↔
    error = error' ∨ ∃ name fault name' fault', error = .group name fault ∧
      error' = .group name' fault' ∧ name ≠ name' ∧ fault ≠ fault' ∧
      fault.message name = fault'.message name' := by
  constructor
  · intro same
    have parts := parts_eq_of_message same
    cases error <;> cases error' <;> simp [Error.parts] at parts
    case notFound.notFound => exact .inl (congrArg notFound parts)
    case malformed.malformed => exact .inl rfl
    case group.group name fault name' fault' =>
      have both := GroupFault.name_eq_iff_of_message parts
      by_cases known : name = name'
      · exact .inl (by rw [known, both.1 known])
      · exact .inr ⟨_, _, _, _, rfl, rfl, known, both.not.1 known, parts⟩
  · rintro (rfl | ⟨name, fault, name', fault', rfl, rfl, -, -, same⟩)
    · rfl
    · rw [message_eq, message_eq, parts, parts, same]

end Error

namespace Table

open Toml

/-- A document is refused by a text that names one of its groups and what is wrong with it. -/
theorem names_message_of_ofDocument {document : Entries} {error : Error}
    (refused : ofDocument document = .error error) : ∃ name value fault,
      (name, value) ∈ document ∧ FirstFault value fault ∧
      Names error.message name ∧ Names error.message fault.subject := by
  obtain ⟨before, ⟨name, value⟩, after, fault, split, -, first, rfl⟩ :=
    foldlM_insertGroup_eq_error_iff.1 refused
  have member : (name, value) ∈ inOrder document := by simp [split]
  obtain ⟨group, subject⟩ := fault.names_message name
  exact ⟨name, value, fault, mem_inOrder.1 member, first, group.append_left _,
    subject.append_left _⟩

/-- A code that is not in a table is refused by a text that names it as it was given. -/
theorem names_message_of_lookup {table : Table} {code : String} {error : Error}
    (refused : table.lookup code = .error error) : Names error.message code := by
  unfold lookup at refused
  split at refused
  · cases refused
  · cases refused
    exact (Names.refl code).append_left _

end Table
end DigitMask.Locale
