import DigitMask.Text.CaseRuns
import DigitMask.Text.Runs

/-! Lower case. Every character is mapped on its own, but for a capital sigma, which is written
as a final sigma at the end of a word, and a dotted capital I, whose dot becomes a character. -/
namespace DigitMask

def isCased (c : Char) : Bool := inRuns casedRuns c

def isCaseIgnorable (c : Char) : Bool := inRuns caseIgnorableRuns c

def LowerRun.covers (run : LowerRun) (c : Char) : Bool :=
  decide (run.first ≤ c.toNat) && decide (c.toNat ≤ run.last) &&
    (c.toNat - run.first) % run.step == 0

def lowerChar (c : Char) : Char :=
  match lowerRuns.find? (·.covers c) with
  | some run => Char.ofNat (c.toNat + run.shift).toNat
  | none => c

/-- The first character that case does not ignore is cased. -/
def startsCased (text : List Char) : Bool :=
  match text.dropWhile isCaseIgnorable with
  | c :: _ => isCased c
  | [] => false

/-- The sigma after the reversed text `before` and ahead of the text `rest`. -/
def lowerSigma (before rest : List Char) : Char :=
  if startsCased before && !startsCased rest then 'ς' else 'σ'

def lowerAfter (before : List Char) : List Char → List Char
  | [] => []
  | 'Σ' :: rest => lowerSigma before rest :: lowerAfter ('Σ' :: before) rest
  | 'İ' :: rest => 'i' :: '\u0307' :: lowerAfter ('İ' :: before) rest
  | c :: rest => lowerChar c :: lowerAfter (c :: before) rest

def lowercase (text : String) : String := String.ofList (lowerAfter [] text.toList)

end DigitMask
